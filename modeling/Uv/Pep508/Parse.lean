import Uv.Normalize
import Uv.Pep508.Cursor
import Uv.Pep508.Interner

/-!
# The marker parser

A recursive descent over a cursor that lowers every expression to a diagram node
as soon as it is read.  The two loops and the nesting of parentheses have fuel;
`none` stands for a panic or for fuel that ran out.

Warnings are a list of their kinds in the order in which they are reported; their
texts are left out.
-/

namespace Uv.Pep508

open Uv.Core Uv.Pep440
open Uv.Pep440.VersionSpecifier (isWhitespace)

/-- `char::is_alphabetic`, which beyond ASCII is a table of Unicode. -/
class Alphabetic where
  isAlphabetic : Char → Bool
  isAlphabetic_ascii : ∀ c : Char, c.toNat < 128 → isAlphabetic c = c.isAlpha

/-- Ways in which marker evaluation can fail. -/
inductive MarkerWarningKind where
  | deprecatedMarkerName
  | extraInvalidComparison
  | extrasInvalidComparison
  | dependencyGroupsInvalidComparison
  | lexicographicComparison
  | markerMarkerComparison
  | pep440Error
  | stringStringComparison
  deriving DecidableEq

structure Pep508Error where
  message : String
  start : ℕ
  len : ℕ
  input : Text

/-! ## Values and operators -/

/-- A name of the marker language, or a quoted string. -/
inductive MarkerValue where
  | markerEnvVersion (key : MarkerValueVersion)
  | markerEnvString (key : MarkerValueString)
  | markerEnvList (key : MarkerValueList)
  | extra
  | quotedString (value : Text)
  deriving DecidableEq

def reservedValues : List (String × MarkerValue) :=
  [("implementation_name", .markerEnvString .implementationName),
    ("implementation_version", .markerEnvVersion .implementationVersion),
    ("os_name", .markerEnvString .osName),
    ("os.name", .markerEnvString .osNameDeprecated),
    ("platform_machine", .markerEnvString .platformMachine),
    ("platform.machine", .markerEnvString .platformMachineDeprecated),
    ("platform_python_implementation",
      .markerEnvString .platformPythonImplementation),
    ("platform.python_implementation",
      .markerEnvString .platformPythonImplementationDeprecated),
    ("python_implementation", .markerEnvString .pythonImplementationDeprecated),
    ("platform_release", .markerEnvString .platformRelease),
    ("platform_system", .markerEnvString .platformSystem),
    ("platform_version", .markerEnvString .platformVersion),
    ("platform.version", .markerEnvString .platformVersionDeprecated),
    ("python_full_version", .markerEnvVersion .pythonFullVersion),
    ("python_version", .markerEnvVersion .pythonVersion),
    ("sys_platform", .markerEnvString .sysPlatform),
    ("sys.platform", .markerEnvString .sysPlatformDeprecated),
    ("extras", .markerEnvList .extras),
    ("dependency_groups", .markerEnvList .dependencyGroups),
    ("extra", .extra)]

/-- `FromStr for MarkerValue`. -/
def MarkerValue.fromStr (s : Text) : Option MarkerValue :=
  (reservedValues.find? (·.1.toList = s)).map Prod.snd

/-- Whether the name is one of the old ones. -/
def MarkerValue.isDeprecated : MarkerValue → Bool
  | .markerEnvString .osNameDeprecated
  | .markerEnvString .platformMachineDeprecated
  | .markerEnvString .platformPythonImplementationDeprecated
  | .markerEnvString .pythonImplementationDeprecated
  | .markerEnvString .platformVersionDeprecated
  | .markerEnvString .sysPlatformDeprecated => true
  | _ => false

/-- `Display for MarkerValueList`. -/
def MarkerValueList.display : MarkerValueList → String
  | .extras => "extras"
  | .dependencyGroups => "dependency_groups"

namespace MarkerOperator

/-- The operator with its two sides exchanged. -/
def invert : MarkerOperator → MarkerOperator
  | .lessThan => .greaterThan
  | .lessEqual => .greaterEqual
  | .greaterThan => .lessThan
  | .greaterEqual => .lessEqual
  | .equal => .equal
  | .notEqual => .notEqual
  | .tildeEqual => .tildeEqual
  | .isIn => .contains
  | .notIn => .notContains
  | .contains => .isIn
  | .notContains => .notIn

def toPep440Operator : MarkerOperator → Option Operator
  | .equal => some .equal
  | .notEqual => some .notEqual
  | .greaterThan => some .greaterThan
  | .greaterEqual => some .greaterThanEqual
  | .lessThan => some .lessThan
  | .lessEqual => some .lessThanEqual
  | .tildeEqual => some .tildeEqual
  | _ => none

/-- `not` and `in` with only whitespace in between. -/
def isNotSpaceIn (s : Text) : Bool :=
  match ("not".toList).isPrefixOf? s with
  | none => false
  | some spaceIn =>
      match ("in".toList).isSuffixOf? spaceIn with
      | none => false
      | some space => !space.isEmpty && space.all isWhitespace

/-- `FromStr for MarkerOperator`. -/
def fromStr (s : Text) : Option MarkerOperator :=
  if s = "==".toList then some .equal
  else if s = "!=".toList then some .notEqual
  else if s = ">".toList then some .greaterThan
  else if s = ">=".toList then some .greaterEqual
  else if s = "<".toList then some .lessThan
  else if s = "<=".toList then some .lessEqual
  else if s = "~=".toList then some .tildeEqual
  else if s = "in".toList then some .isIn
  else if isNotSpaceIn s then some .notIn
  else none

/-- `Display for MarkerOperator`. -/
def display : MarkerOperator → String
  | .equal => "=="
  | .notEqual => "!="
  | .greaterThan => ">"
  | .greaterEqual => ">="
  | .lessThan => "<"
  | .lessEqual => "<="
  | .tildeEqual => "~="
  | .isIn | .contains => "in"
  | .notIn | .notContains => "not in"

end MarkerOperator

def ContainerOperator.fromMarkerOperator : MarkerOperator → Option ContainerOperator
  | .isIn => some .isIn
  | .notIn => some .notIn
  | _ => none

def ExtraOperator.fromMarkerOperator : MarkerOperator → Option ExtraOperator
  | .equal => some .equal
  | .notEqual => some .notEqual
  | _ => none

/-- `FromStr for Version` on a text. -/
def parseVersion (text : Text) : Option ValidVersion :=
  match hparse : Version.fromStr (VersionSpecifier.utf8 text) with
  | .ok _ => some (.ofFromStr hparse)
  | .error _ => none

/-- `FromStr for VersionPattern` on a text: the version and whether a star
follows it. -/
def parsePattern (text : Text) : Option (ValidVersion × Bool) :=
  match hparse : VersionPattern.fromStr (VersionSpecifier.utf8 text) with
  | .ok pattern =>
      some (⟨pattern.version, Parser.valid_of_parsePattern hparse⟩, pattern.wildcard)
  | .error _ => none

/-! ## Typed expressions -/

/-- What is done with values that are read already: warn, or fail with a
message. -/
abbrev ReportM := ExceptT String (StateT (List MarkerWarningKind) Option)

def report (kind : MarkerWarningKind) : ReportM Unit :=
  modify (· ++ [kind])

/-- Warn and ignore the expression. -/
def ignored (kind : MarkerWarningKind) : ReportM (Option MarkerExpression) := do
  report kind
  pure none

/-- The loop of `parse_version_in_expr`; the inner `none` is for a word that is no
version. -/
def versionsLoop : ℕ → Cursor → List ValidVersion → Option (Option (List ValidVersion))
  | 0, _, _ => none
  | fuel + 1, cursor, versions =>
      let ((start, len), cursor) :=
        cursor.eatWhitespace.takeWhile (!isWhitespace ·)
      if len = 0 then some (some versions)
      else do
        let word ← cursor.slice start len
        match parseVersion word with
        | none => some none
        | some version => versionsLoop fuel cursor (versions ++ [version])

def parseVersionInExpr (key : MarkerValueVersion) (operator : MarkerOperator)
    (value : Text) : ReportM (Option MarkerExpression) :=
  match ContainerOperator.fromMarkerOperator operator with
  | none => pure none
  | some operator => do
      let versions ← ExceptT.lift (StateT.lift
        (versionsLoop (value.length + 1) (.new value) []))
      match versions with
      | some versions => pure (some (.versionIn key versions operator))
      | none => ignored .pep440Error

def parseVersionExpr (key : MarkerValueVersion) (markerOperator : MarkerOperator)
    (value : Text) : ReportM (Option MarkerExpression) :=
  match parsePattern value with
  | none => ignored .pep440Error
  | some (version, wildcard) =>
      match markerOperator.toPep440Operator with
      | none => ignored .pep440Error
      | some operator =>
          match VersionSpecifier.fromPattern operator version wildcard with
          | .error _ => ignored .pep440Error
          | .ok specifier => pure (some (.version key specifier))

def parseInvertedVersionExpr (value : Text) (markerOperator : MarkerOperator)
    (key : MarkerValueVersion) : ReportM (Option MarkerExpression) :=
  match parseVersion value with
  | none => ignored .pep440Error
  | some version =>
      match markerOperator.invert.toPep440Operator with
      | none => ignored .pep440Error
      | some operator =>
          match VersionSpecifier.fromVersion operator version with
          | .error _ => ignored .pep440Error
          | .ok specifier => pure (some (.version key specifier))

def parseExtraExpr (operator : MarkerOperator) (value : Text) :
    ReportM (Option MarkerExpression) := do
  let name ← match validateAndNormalize value with
    | some name => pure (.extra name)
    | none => do
        report .extraInvalidComparison
        pure (.arbitrary value)
  match ExtraOperator.fromMarkerOperator operator with
  | some operator => pure (some (.extra name operator))
  | none => ignored .extraInvalidComparison

/-- The pair of `'...' in extras` and `'...' in dependency_groups`. -/
def listPair (key : MarkerValueList) (value : Text) :
    ReportM CanonicalMarkerListPair :=
  match validateAndNormalize value with
  | some name =>
      match key with
      | .extras => pure (.extras name)
      | .dependencyGroups => pure (.dependencyGroup name)
  | none => do
      report .extrasInvalidComparison
      pure (.arbitrary key value)

/-- The typed equivalent of `<marker_value> <marker_op> <marker_value>`. -/
def typedExpression (lValue : MarkerValue) (operator : MarkerOperator)
    (rValue : MarkerValue) : ReportM (Option MarkerExpression) :=
  match lValue with
  | .markerEnvVersion key =>
      match rValue with
      | .quotedString value => do
          match ← parseVersionInExpr key operator value with
          | some expr => pure (some expr)
          | none => parseVersionExpr key operator value
      | _ => ignored .pep440Error
  | .markerEnvString key =>
      match rValue with
      | .quotedString value =>
          if operator = .tildeEqual then ignored .lexicographicComparison
          else pure (some (.string key operator value))
      | _ => ignored .markerMarkerComparison
  | .markerEnvList key =>
      throw ("The marker " ++ key.display ++
        " must be on the right hand side of the expression")
  | .extra =>
      match rValue with
      | .quotedString value => parseExtraExpr operator value
      | _ => ignored .extraInvalidComparison
  | .quotedString lString =>
      match rValue with
      | .markerEnvVersion key => parseInvertedVersionExpr lString operator key
      -- `~=` is not refused here.
      | .markerEnvString key => pure (some (.string key operator.invert lString))
      | .markerEnvList key =>
          match ContainerOperator.fromMarkerOperator operator with
          | none =>
              throw ("The operator " ++ operator.display ++
                " is not supported with the marker " ++ key.display ++
                ", only the `in` and `not in` operators are supported")
          | some operator => do
              let pair ← listPair key lString
              pure (some (.list pair operator))
      | .extra => parseExtraExpr operator lString
      | .quotedString _ => ignored .stringStringComparison

/-! ## Reading -/

structure ParserState where
  cursor : Cursor
  reports : List MarkerWarningKind
  interner : Interner

abbrev ParserM := ExceptT Pep508Error (StateT ParserState Option)

namespace ParserM

variable {α : Type}

def abort : ParserM α := ExceptT.mk fun _ => none

def onCursor (f : Cursor → α × Cursor) : ParserM α :=
  ExceptT.mk fun s =>
    some (.ok (f s.cursor).1, { s with cursor := (f s.cursor).2 })

def slice (start len : ℕ) : ParserM Text :=
  ExceptT.mk fun s => (s.cursor.slice start len).map fun text => (.ok text, s)

def fail (message : String) (start len : ℕ) : ParserM α :=
  ExceptT.mk fun s => some (.error ⟨message, start, len, s.cursor.input⟩, s)

def ofInterner (action : InternerM α) : ParserM α :=
  ExceptT.mk fun s => (action.run s.interner).map fun (value, interner) =>
    (.ok value, { s with interner := interner })

/-- The warnings are appended, and a message becomes an error about the span. -/
def ofReport (action : ReportM α) (start len : ℕ) : ParserM α :=
  ExceptT.mk fun s => (action.run.run []).map fun (result, reports) =>
    (result.mapError fun message => ⟨message, start, len, s.cursor.input⟩,
      { s with reports := s.reports ++ reports })

def pos : ParserM ℕ := onCursor fun cursor => (cursor.pos, cursor)

def eatWhitespace : ParserM Unit := onCursor fun cursor => ((), cursor.eatWhitespace)

def next : ParserM (Option (ℕ × Char)) := onCursor Cursor.next

def takeWhile (condition : Char → Bool) : ParserM (ℕ × ℕ) :=
  onCursor (·.takeWhile condition)

def peekWhile (condition : Char → Bool) : ParserM (ℕ × ℕ) :=
  onCursor fun cursor => (cursor.peekWhile condition, cursor)

def nextExpectChar (expected : Char) (spanStart : ℕ) : ParserM Unit := do
  match ← next with
  | none =>
      fail ("Expected '" ++ expected.toString ++
        "', found end of dependency specification") spanStart 1
  | some (pos, value) =>
      if value = expected then pure ()
      else
        fail ("Expected `" ++ expected.toString ++ "`, found `" ++
          value.toString ++ "`") pos value.utf8Size

end ParserM

def quotationMarks : List Char := ['\x22', '\x27']

section Parse

variable [Alphabetic]

open ParserM

/-- `not`, whitespace and `in`; the `not` has been read. -/
def parseNotIn : ParserM MarkerOperator := do
  match ← next with
  | none => do
      fail "Expected whitespace after 'not', found end of input" (← pos) 1
  | some (position, other) =>
      if isWhitespace other then do
        eatWhitespace
        nextExpectChar 'i' (← pos)
        nextExpectChar 'n' (← pos)
        pure .notIn
      else
        fail ("Expected whitespace after `not`, found `" ++ other.toString ++ "`")
          position other.utf8Size

def isOperatorWord (c : Char) : Bool := !isWhitespace c && !quotationMarks.contains c

def isOperatorSymbol (c : Char) : Bool := "<=>~!".toList.contains c

def parseMarkerOperator : ParserM MarkerOperator := do
  let first ← onCursor fun cursor => (cursor.peekChar, cursor)
  let (start, len) ← takeWhile
    -- "in" or "not", or a mathematical operator
    (if first.any Alphabetic.isAlphabetic then isOperatorWord else isOperatorSymbol)
  let operator ← slice start len
  if operator = "not".toList then parseNotIn
  else
    match MarkerOperator.fromStr operator with
    | some operator => pure operator
    | none =>
        fail ("Expected a valid marker operator (such as `>=` or `not in`), found `" ++
          String.ofList operator ++ "`") start len

def isKeyChar (c : Char) : Bool := !isWhitespace c && !">=<!~)".toList.contains c

/-- A warning about a deprecated name. -/
def reportDeprecated (value : MarkerValue) : ReportM Unit :=
  if value.isDeprecated then report .deprecatedMarkerName else pure ()

/-- The string after an opening quotation mark. -/
def parseQuoted (quotationMark : Char) (startPos : ℕ) : ParserM MarkerValue := do
  let (start, len) ← takeWhile (· != quotationMark)
  let value ← slice start len
  nextExpectChar quotationMark startPos
  pure (.quotedString value)

/-- A keyword. -/
def parseKey : ParserM MarkerValue := do
  let (start, len) ← takeWhile isKeyChar
  let key ← slice start len
  match MarkerValue.fromStr key with
  | some value => do
      ofReport (reportDeprecated value) start len
      pure value
  | none =>
      fail ("Expected a quoted string or a valid marker name, found `" ++
        String.ofList key ++ "`") start len

def parseMarkerValue : ParserM MarkerValue := do
  match ← onCursor fun cursor => (cursor.peek, cursor) with
  | none =>
      fail "Expected marker value, found end of dependency specification" (← pos) 1
  | some (startPos, quotationMark) =>
      if quotationMarks.contains quotationMark then do
        let _ ← next
        parseQuoted quotationMark startPos
      else parseKey

def parseMarkerKeyOpValue : ParserM (Option MarkerExpression) := do
  eatWhitespace
  let start ← pos
  let lValue ← parseMarkerValue
  eatWhitespace
  let operator ← parseMarkerOperator
  eatWhitespace
  let rValue ← parseMarkerValue
  let len := (← pos) - start
  ofReport (typedExpression lValue operator rValue) start len

/-! ## Marker trees -/

variable [RangeOps ValidVersion] [RangeOps Text]

/-- Combine the tree so far with a further expression. -/
def applyTo (apply : NodeId → NodeId → InternerM NodeId) (tree : Option NodeId)
    (expression : NodeId) : InternerM NodeId :=
  match tree with
  | some tree => apply tree expression
  | none => pure expression

/-- The loop of `parse_marker_op`. -/
def parseMarkerOpLoop (op : Text) (apply : NodeId → NodeId → InternerM NodeId)
    (parseInner : ParserM (Option NodeId)) :
    ℕ → Option NodeId → ParserM (Option NodeId)
  | 0, _ => abort
  | fuel + 1, tree => do
      eatWhitespace
      let (start, len) ← peekWhile (!isWhitespace ·)
      let value ← slice start len
      if value = op then do
        let _ ← takeWhile (!isWhitespace ·)
        match ← parseInner with
        | some expression => do
            let tree ← ofInterner (applyTo apply tree expression)
            parseMarkerOpLoop op apply parseInner fuel (some tree)
        | none => parseMarkerOpLoop op apply parseInner fuel tree
      else pure tree

/-- Parses both `marker_and` and `marker_or`. -/
def parseMarkerOp (op : Text) (apply : NodeId → NodeId → InternerM NodeId)
    (parseInner : ParserM (Option NodeId)) : ParserM (Option NodeId) := do
  let firstElement ← parseInner
  let remaining ← onCursor fun cursor => (cursor.remaining, cursor)
  parseMarkerOpLoop op apply parseInner (remaining + 1) firstElement

def parseMarkerExpr (parseMarkerOr : ParserM (Option NodeId)) :
    ParserM (Option NodeId) := do
  eatWhitespace
  match ← onCursor (·.eatChar '(') with
  | some startPos => do
      let marker ← parseMarkerOr
      nextExpectChar ')' startPos
      pure marker
  | none =>
      match ← parseMarkerKeyOpValue with
      | some expr => do
          let node ← ofInterner (expression expr)
          pure (some node)
      | none => pure none

def parseMarkerAnd (parseMarkerOr : ParserM (Option NodeId)) :
    ParserM (Option NodeId) :=
  parseMarkerOp "and".toList and (parseMarkerExpr parseMarkerOr)

/-- The fuel bounds the nesting of parentheses. -/
def parseMarkerOr : ℕ → ParserM (Option NodeId)
  | 0 => abort
  | fuel + 1 => parseMarkerOp "or".toList or (parseMarkerAnd (parseMarkerOr fuel))

def parseMarkersCursor : ParserM (Option NodeId) := do
  let remaining ← onCursor fun cursor => (cursor.remaining, cursor)
  let marker ← parseMarkerOr (remaining + 1)
  eatWhitespace
  match ← next with
  | some (pos, unexpected) => do
      let remaining ← onCursor fun cursor => (cursor.remaining, cursor)
      fail ("Unexpected character '" ++ unexpected.toString ++
        "', expected 'and', 'or' or end of input") pos remaining
  | none => pure marker

/-- If the tree consisted entirely of expressions that were ignored, it evaluates
to true. -/
def parseMarkers (markers : Text) :
    InternerM (Except Pep508Error NodeId × List MarkerWarningKind) := fun interner =>
  (parseMarkersCursor.run.run ⟨.new markers, [], interner⟩).map fun (result, s) =>
    ((result.map (·.getD .TRUE), s.reports), s.interner)

/-- `FromStr for MarkerTree`. -/
def fromStr (markers : Text) : InternerM (Except Pep508Error NodeId) :=
  Prod.fst <$> parseMarkers markers

end Parse

end Uv.Pep508
