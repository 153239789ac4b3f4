import Uv.Pep508.MarkerGrammar
import Uv.Pep508.ParserRuns

/-!
# The parser reads the grammar

The scanner reads every part of a spaced derivation, from the values and operators up
to whole markers, and ends with the formula of the derivation.  So the parser returns
a tree for it, and the tree evaluates as the derivation does.
-/

namespace Uv.Pep508

open Uv.Core Uv.Pep440
open Uv.Pep440.VersionSpecifier (isWhitespace)
open Interner

/-! ## Words -/

/-- A word ends where its condition fails. -/
theorem takeWhile_word {condition : Char → Bool} {word rest : Text}
    (hword : ∀ c ∈ word, condition c = true)
    (hstop : ∀ c ∈ rest.head?, condition c = false) :
    (word ++ rest).takeWhile condition = word := by
  rw [List.takeWhile_append_of_pos hword]
  cases rest with
  | nil => simp
  | cons c rest => simp [hstop c rfl]

theorem dropWhile_word {condition : Char → Bool} {word rest : Text}
    (hword : ∀ c ∈ word, condition c = true)
    (hstop : ∀ c ∈ rest.head?, condition c = false) :
    (word ++ rest).dropWhile condition = rest := by
  rw [List.dropWhile_append_of_pos hword]
  cases rest with
  | nil => rfl
  | cons c rest => simp [hstop c rfl]

theorem dropWhile_head {condition : Char → Bool} {rest : Text}
    (hstop : ∀ c ∈ rest.head?, condition c = false) : rest.dropWhile condition = rest :=
  dropWhile_word (List.forall_mem_nil _) hstop

theorem Space.dropWhile (space : Space) {rest : Text}
    (hstop : ∀ c ∈ rest.head?, isWhitespace c = false) :
    (space.text ++ rest).dropWhile isWhitespace = rest :=
  dropWhile_word space.isSpace hstop

/-- What a text of the grammar starts with. -/
def Starts (text : Text) (condition : Char → Bool) : Prop :=
  ∃ c rest, text = c :: rest ∧ condition c = true

theorem Starts.head {text rest : Text} {condition : Char → Bool}
    (hstarts : Starts text condition) : ∀ c ∈ (text ++ rest).head?, condition c = true := by
  obtain ⟨first, tail, rfl, hfirst⟩ := hstarts
  intro c hc
  cases hc
  exact hfirst

/-- The same behind whitespace. -/
theorem Space.head {space : Space} {rest : Text} {condition : Char → Bool}
    (hspace : ∀ c, isWhitespace c = true → condition c = false)
    (hrest : ∀ c ∈ rest.head?, condition c = false) :
    ∀ c ∈ (space.text ++ rest).head?, condition c = false := by
  cases htext : space.text with
  | nil => exact hrest
  | cons first tail =>
      intro c hc
      cases hc
      exact hspace first (space.isSpace first (by rw [htext]; exact List.mem_cons_self))

/-! ## Values -/

/-- A value does not start like whitespace, an operator or a parenthesis. -/
def startsValue (c : Char) : Bool :=
  !isWhitespace c && !isOperatorSymbol c && c != '('

theorem MarkerVar.starts (var : MarkerVar) : Starts var.text startsValue := by
  cases var with
  | quoted mark content hmark hcontent =>
      have hmarks : quotationMarks.all startsValue = true := by decide
      exact ⟨mark, content ++ [mark], rfl,
        List.all_eq_true.mp hmarks mark (List.contains_iff_mem.mp hmark)⟩
  | name word value hname =>
      have hall : ∀ entry ∈ markerVars,
          entry.1.toList.head?.any startsValue = true := by decide
      have hhead := hall _ hname
      change Starts word.toList startsValue
      cases hword : word.toList with
      | nil =>
          rw [hword] at hhead
          cases hhead
      | cons c rest =>
          rw [hword] at hhead
          exact ⟨c, rest, rfl, hhead⟩

theorem lexValue_var {var : MarkerVar} {rest : Text} (hends : var.EndsBefore rest) :
    lexValue (var.text ++ rest) = some (var.value, rest) := by
  cases var with
  | quoted mark content hmark hcontent =>
      have hstop : ∀ c ∈ (mark :: rest).head?, (c != mark) = false := by
        intro c hc
        cases hc
        exact bne_self_eq_false mark
      have htext : (MarkerVar.quoted mark content hmark hcontent).text ++ rest =
          mark :: (content ++ mark :: rest) := by
        simp [MarkerVar.text]
      rw [htext, lexValue, if_pos hmark, lexQuoted, dropWhile_word hcontent hstop,
        takeWhile_word hcontent hstop, lexChar_eq_some.mpr rfl]
      rfl
  | name word value hname =>
      have hall : ∀ entry ∈ markerVars,
          entry.1.toList.all isKeyChar = true ∧
            entry.1.toList.head?.all (fun c => !quotationMarks.contains c) = true ∧
            MarkerValue.fromStr entry.1.toList = some entry.2 := by decide
      obtain ⟨hkey, hhead, hvalue⟩ := hall _ hname
      have hword := List.all_eq_true.mp hkey
      obtain ⟨c, tail, hcons, -⟩ := (MarkerVar.name word value hname).starts
      have hquote : ¬ quotationMarks.contains c = true := by
        change word.toList = c :: tail at hcons
        dsimp only at hhead
        rw [hcons] at hhead
        simpa using hhead
      have htext : (MarkerVar.name word value hname).text ++ rest =
          c :: (tail ++ rest) := by
        rw [hcons]
        rfl
      rw [htext, lexValue, if_neg hquote, ← htext, lexKey]
      change Option.map _ (MarkerValue.fromStr ((word.toList ++ rest).takeWhile _)) = _
      rw [takeWhile_word hword hends, hvalue]
      change some (value, (word.toList ++ rest).dropWhile isKeyChar) = _
      rw [dropWhile_word hword hends]
      rfl

theorem MarkerVar.head_text (var : MarkerVar) (rest : Text) :
    ∀ c ∈ (var.text ++ rest).head?, startsValue c = true :=
  var.starts.head

/-! ## Operators -/

/-- Whitespace is no operator. -/
theorem isOperatorSymbol_space (c : Char) (hspace : isWhitespace c = true) :
    isOperatorSymbol c = false := by
  have hall : "<=>~!".toList.all (fun c => !isWhitespace c) = true := by decide
  by_contra hsymbol
  rw [Bool.not_eq_false] at hsymbol
  have hnot := List.all_eq_true.mp hall c (List.contains_iff_mem.mp hsymbol)
  rw [hspace] at hnot
  cases hnot

theorem MarkerOp.starts (op : MarkerOp) : Starts op.text fun c => !isWhitespace c := by
  cases op with
  | versionCmp symbol operator hsymbol =>
      have hall : ∀ entry ∈ versionCmps,
          entry.1.toList.head?.any (fun c => !isWhitespace c) = true := by decide
      have hhead := hall _ hsymbol
      change Starts symbol.toList _
      cases hcons : symbol.toList with
      | nil =>
          rw [hcons] at hhead
          cases hhead
      | cons c rest =>
          rw [hcons] at hhead
          exact ⟨c, rest, rfl, hhead⟩
  | arbitraryEqual => exact ⟨'=', "==".toList, rfl, by decide⟩
  | isIn => exact ⟨'i', "n".toList, rfl, by decide⟩
  | notIn space hspace =>
      exact ⟨'n', "ot".toList ++ space.text ++ "in".toList, rfl, by decide⟩

section Reading

variable [Alphabetic]

theorem lexOperator_op {op : MarkerOp} {rest : Text} {operator : MarkerOperator}
    (hoperator : op.operator = some operator) (hends : op.EndsBefore rest)
    (hsymbol : ∀ c ∈ rest.head?, isOperatorSymbol c = false) :
    lexOperator (op.text ++ rest) = some (operator, rest) := by
  cases op with
  | arbitraryEqual => exact hends.elim
  | versionCmp symbol operator' hmem =>
      cases hoperator
      have hall : ∀ entry ∈ versionCmps,
          entry.1.toList.all isOperatorSymbol = true ∧
            entry.1.toList ≠ "not".toList ∧
            MarkerOperator.fromStr entry.1.toList = some entry.2 ∧
            entry.1.toList.head?.any (fun c => c.toNat < 128 && !c.isAlpha) = true := by
        decide
      obtain ⟨hsymbols, hnot, hfrom, hhead⟩ := hall _ hmem
      have hchars : operatorChar (symbol.toList ++ rest) = isOperatorSymbol := by
        dsimp only at hhead
        cases hcons : symbol.toList with
        | nil =>
            rw [hcons] at hhead
            cases hhead
        | cons c tail =>
            rw [hcons] at hhead
            obtain ⟨hascii, halpha⟩ := Bool.and_eq_true_iff.mp hhead
            apply if_neg
            change ¬ Alphabetic.isAlphabetic c = true
            rw [Alphabetic.isAlphabetic_ascii c (of_decide_eq_true hascii)]
            simpa using halpha
      have hword := List.all_eq_true.mp hsymbols
      change lexOperator (symbol.toList ++ rest) = _
      rw [lexOperator, hchars, takeWhile_word hword hsymbol, dropWhile_word hword hsymbol]
      dsimp only
      rw [if_neg hnot, hfrom]
      rfl
  | isIn =>
      cases hoperator
      have hchars : operatorChar ("in".toList ++ rest) = isOperatorWord := by
        apply if_pos
        change Alphabetic.isAlphabetic 'i' = true
        rw [Alphabetic.isAlphabetic_ascii 'i' (by simp)]
        rfl
      have hword : ∀ c ∈ "in".toList, isOperatorWord c = true :=
        List.all_eq_true.mp (by decide)
      change lexOperator ("in".toList ++ rest) = _
      rw [lexOperator, hchars, takeWhile_word hword hends, dropWhile_word hword hends]
      rfl
  | notIn space hspace =>
      cases hoperator
      obtain ⟨c, tail, hcons⟩ := List.exists_cons_of_ne_nil hspace
      have hc : isWhitespace c = true :=
        space.isSpace c (by rw [hcons]; exact List.mem_cons_self)
      have htail : ∀ d ∈ tail, isWhitespace d = true := fun d hd =>
        space.isSpace d (by rw [hcons]; exact List.mem_cons_of_mem c hd)
      have htext : (MarkerOp.notIn space hspace).text ++ rest =
          "not".toList ++ (c :: (tail ++ ("in".toList ++ rest))) := by
        simp [MarkerOp.text, hcons]
      have hchars : operatorChar ("not".toList ++ (c :: (tail ++ ("in".toList ++ rest)))) =
          isOperatorWord := by
        apply if_pos
        change Alphabetic.isAlphabetic 'n' = true
        rw [Alphabetic.isAlphabetic_ascii 'n' (by simp)]
        rfl
      have hword : ∀ d ∈ "not".toList, isOperatorWord d = true :=
        List.all_eq_true.mp (by decide)
      have hstop : ∀ d ∈ (c :: (tail ++ ("in".toList ++ rest))).head?,
          isOperatorWord d = false := by
        intro d hd
        cases hd
        simp [isOperatorWord, hc]
      have hin : ∀ d ∈ ("in".toList ++ rest).head?, isWhitespace d = false := by
        intro d hd
        cases hd
        decide
      rw [htext, lexOperator, hchars, takeWhile_word hword hstop,
        dropWhile_word hword hstop]
      rw [if_pos rfl, lexNotIn, if_pos hc, dropWhile_word htail hin]
      rfl

/-! ## Comparisons -/

/-- The action returns an expression with a proper name, or nothing after a
warning. -/
def Settles (action : ReportM (Option MarkerExpression)) : Prop :=
  ∀ log, ∃ expr log', action.run.run log = some (.ok expr, log') ∧
    match expr with
    | some expr => expr.isNamed = true
    | none => log.length < log'.length

omit [Alphabetic] in
theorem Settles.ignored (kind : MarkerWarningKind) : Settles (ignored kind) :=
  fun log => ⟨none, log ++ [kind], rfl, by simp⟩

omit [Alphabetic] in
theorem Settles.pure {expr : MarkerExpression} (hnamed : expr.isNamed = true) :
    Settles (Pure.pure (some expr)) :=
  fun log => ⟨some expr, log, rfl, hnamed⟩

omit [Alphabetic] in
theorem parseVersionExpr_settles (key : MarkerValueVersion) (operator : MarkerOperator)
    (value : Text) : Settles (parseVersionExpr key operator value) := by
  unfold parseVersionExpr
  cases parsePattern value with
  | none => exact .ignored _
  | some pattern =>
      cases operator.toPep440Operator with
      | none => exact .ignored _
      | some operator =>
          dsimp only
          cases VersionSpecifier.fromPattern operator pattern.1 pattern.2 with
          | error err => exact .ignored _
          | ok specifier => exact .pure rfl

omit [Alphabetic] in
theorem parseInvertedVersionExpr_settles (value : Text) (operator : MarkerOperator)
    (key : MarkerValueVersion) :
    Settles (parseInvertedVersionExpr value operator key) := by
  unfold parseInvertedVersionExpr
  cases parseVersion value with
  | none => exact .ignored _
  | some version =>
      cases operator.invert.toPep440Operator with
      | none => exact .ignored _
      | some operator =>
          dsimp only
          cases VersionSpecifier.fromVersion operator version with
          | error err => exact .ignored _
          | ok specifier => exact .pure rfl

omit [Alphabetic] in
theorem parseExtraExpr_settles (operator : MarkerOperator) (value : Text) :
    Settles (parseExtraExpr operator value) := by
  intro log
  cases hname : validateAndNormalize value <;>
    cases hoperator : ExtraOperator.fromMarkerOperator operator <;>
    · refine ⟨_, _, by simp only [parseExtraExpr, hname, hoperator]; rfl, ?_⟩
      simp [MarkerExpression.isNamed]

omit [Alphabetic] in
/-- A comparison with a list of versions, or the next attempt. -/
theorem parseVersionInExpr_settles (key : MarkerValueVersion) (operator : MarkerOperator)
    (value : Text) : Settles (do
      match ← parseVersionInExpr key operator value with
      | some expr => pure (some expr)
      | none => parseVersionExpr key operator value) := by
  intro log
  have hnext := parseVersionExpr_settles key operator value
  cases hoperator : ContainerOperator.fromMarkerOperator operator with
  | none =>
      obtain ⟨expr, log', hrun, hpost⟩ := hnext log
      refine ⟨expr, log', ?_, hpost⟩
      simp only [parseVersionInExpr, hoperator]
      exact hrun
  | some container =>
      obtain ⟨result, hresult, -⟩ := versionsLoop_spec
        (Cursor.valid_new value) (Nat.lt_succ_self value.length)
        (fun version (hmem : version ∈ []) => by cases hmem)
      cases result with
      | none =>
          obtain ⟨expr, log', hrun, hpost⟩ := hnext (log ++ [.pep440Error])
          refine ⟨expr, log', ?_, ?_⟩
          · simp only [parseVersionInExpr, hoperator, hresult]
            exact hrun
          · cases expr with
            | none =>
                rw [List.length_append] at hpost
                exact (Nat.le_add_right _ _).trans_lt hpost
            | some expr => exact hpost
      | some versions =>
          refine ⟨some (.versionIn key versions container), log, ?_, rfl⟩
          simp only [parseVersionInExpr, hoperator, hresult]
          rfl

/-- The values of the grammar. -/
def MarkerValue.isList : MarkerValue → Bool
  | .markerEnvList _ => true
  | _ => false

omit [Alphabetic] in
theorem MarkerVar.isList_value (var : MarkerVar) : var.value.isList = false := by
  cases var with
  | quoted mark content hmark hcontent => rfl
  | name word value hname =>
      have hall : ∀ entry ∈ markerVars, entry.2.isList = false := by decide
      exact hall _ hname

omit [Alphabetic] in
theorem typedExpression_settles {lValue rValue : MarkerValue} (operator : MarkerOperator)
    (hleft : lValue.isList = false) (hright : rValue.isList = false) :
    Settles (typedExpression lValue operator rValue) := by
  cases lValue with
  | markerEnvList key => cases hleft
  | markerEnvVersion key =>
      cases rValue with
      | quotedString value => exact parseVersionInExpr_settles key operator value
      | _ => exact .ignored _
  | markerEnvString key =>
      cases rValue with
      | quotedString value =>
          simp only [typedExpression]
          split
          · exact .ignored _
          · exact .pure rfl
      | _ => exact .ignored _
  | extra =>
      cases rValue with
      | quotedString value => exact parseExtraExpr_settles operator value
      | _ => exact .ignored _
  | quotedString lString =>
      cases rValue with
      | markerEnvList key => cases hright
      | markerEnvVersion key =>
          exact parseInvertedVersionExpr_settles lString operator key
      | markerEnvString key => exact .pure rfl
      | extra => exact parseExtraExpr_settles operator lString
      | quotedString value => exact .ignored _

omit [Alphabetic] in
theorem typed_settles {lValue rValue : MarkerValue} (operator : MarkerOperator)
    (hleft : lValue.isList = false) (hright : rValue.isList = false) :
    ∃ expr, typed lValue operator rValue = some expr ∧
      ∀ e ∈ expr, e.isNamed = true := by
  obtain ⟨expr, log, hrun, hpost⟩ := typedExpression_settles operator hleft hright []
  refine ⟨expr, by rw [typed, hrun], fun e he => ?_⟩
  cases he
  exact hpost

theorem lexExpression_eq {text afterLeft afterOp rest : Text}
    {lValue rValue : MarkerValue} {operator : MarkerOperator}
    {expr : Option MarkerExpression}
    (hleft : lexValue (text.dropWhile isWhitespace) = some (lValue, afterLeft))
    (hop : lexOperator (afterLeft.dropWhile isWhitespace) = some (operator, afterOp))
    (hright : lexValue (afterOp.dropWhile isWhitespace) = some (rValue, rest))
    (htyped : typed lValue operator rValue = some expr) :
    lexExpression text = some (expr, rest) := by
  simp only [lexExpression, hleft, hop, hright, htyped, Option.bind_eq_bind,
    Option.bind_some]

omit [Alphabetic] in
theorem MarkerOp.EndsBefore.operator {op : MarkerOp} {rest : Text}
    (hends : op.EndsBefore rest) : ∃ operator, op.operator = some operator := by
  cases op with
  | arbitraryEqual => exact hends.elim
  | versionCmp symbol operator hsymbol => exact ⟨operator, rfl⟩
  | isIn => exact ⟨.isIn, rfl⟩
  | notIn space hspace => exact ⟨.notIn, rfl⟩

/-- A spaced comparison is read to its end. -/
theorem lexExpression_comparison {comparison : MarkerComparison} {rest : Text}
    (hspaced : comparison.Spaced rest) :
    lexExpression (comparison.body ++ rest) = some (comparison.expression, rest) ∧
      ∀ e ∈ comparison.expression, e.isNamed = true := by
  obtain ⟨operator, hoperator⟩ := hspaced.op.operator
  obtain ⟨expr, htyped, hnamed⟩ := typed_settles operator comparison.left.isList_value
    comparison.right.isList_value
  have hexpr : comparison.expression = expr := by
    rw [MarkerComparison.expression, hoperator]
    exact congrArg Option.join htyped
  have hbody : comparison.body ++ rest = comparison.left.text ++
      (comparison.beforeOp.text ++ (comparison.op.text ++
        (comparison.beforeRight.text ++ (comparison.right.text ++ rest)))) := by
    simp [MarkerComparison.body]
  have hvalue : ∀ (var : MarkerVar) (text : Text), ∀ c ∈ (var.text ++ text).head?,
      isWhitespace c = false ∧ isOperatorSymbol c = false := by
    intro var text c hc
    have hstarts := var.head_text text c hc
    simp only [startsValue, Bool.and_eq_true, Bool.not_eq_true'] at hstarts
    exact hstarts.1
  have hop : ∀ c ∈ (comparison.op.text ++ (comparison.beforeRight.text ++
      (comparison.right.text ++ rest))).head?, isWhitespace c = false := by
    intro c hc
    simpa using comparison.op.starts.head c hc
  have hsymbol := @Space.head comparison.beforeRight _ _ isOperatorSymbol_space
    fun c hc => (hvalue comparison.right rest c hc).2
  have hleft : lexValue ((comparison.body ++ rest).dropWhile isWhitespace) = some
      (comparison.left.value, comparison.beforeOp.text ++ (comparison.op.text ++
        (comparison.beforeRight.text ++ (comparison.right.text ++ rest)))) := by
    rw [hbody, dropWhile_head fun c hc => (hvalue _ _ c hc).1]
    exact lexValue_var hspaced.left
  have hread : lexOperator ((comparison.beforeOp.text ++ (comparison.op.text ++
      (comparison.beforeRight.text ++ (comparison.right.text ++ rest)))).dropWhile
        isWhitespace) =
      some (operator, comparison.beforeRight.text ++ (comparison.right.text ++ rest)) := by
    rw [comparison.beforeOp.dropWhile hop]
    exact lexOperator_op hoperator hspaced.op hsymbol
  have hright : lexValue ((comparison.beforeRight.text ++
      (comparison.right.text ++ rest)).dropWhile isWhitespace) =
        some (comparison.right.value, rest) := by
    rw [comparison.beforeRight.dropWhile fun c hc => (hvalue _ _ c hc).1]
    exact lexValue_var hspaced.right
  rw [hexpr]
  exact ⟨lexExpression_eq hleft hread hright htyped, hnamed⟩

/-! ## Runs -/

omit [Alphabetic] in
/-- What may follow an operand: its first word is ASCII. -/
def Plain (text : Text) : Prop := ∀ c ∈ text.takeWhile isWordChar, c.utf8Size = 1

omit [Alphabetic] in
theorem byteLength_ascii {text : Text} (hascii : ∀ c ∈ text, c.utf8Size = 1) :
    byteLength text = text.length := by
  induction text with
  | nil => rfl
  | cons c text ih =>
      rw [byteLength_cons, hascii c List.mem_cons_self,
        ih fun d hd => hascii d (List.mem_cons_of_mem c hd), List.length_cons, Nat.add_comm]

omit [Alphabetic] in
/-- No word is cut inside a character then. -/
theorem connective_plain {text : Text} (hplain : Plain text) :
    connective text =
      if text.takeWhile isWordChar = "and".toList then .and
      else if text.takeWhile isWordChar = "or".toList then .or
      else .other := by
  have htake := takeBytes_append (text.takeWhile isWordChar) (text.dropWhile isWordChar)
  rw [List.takeWhile_append_dropWhile, byteLength_ascii hplain] at htake
  rw [connective, htake]

omit [Alphabetic] in
/-- A word and whitespace, or a word that is the last, behind whitespace. -/
theorem Space.plain (space : Space) {rest : Text} (hplain : Plain rest) :
    Plain (space.text ++ rest) := by
  cases htext : space.text with
  | nil => exact hplain
  | cons c tail =>
      have hspace := space.isSpace c (by rw [htext]; exact List.mem_cons_self)
      intro d hd
      rw [List.cons_append, List.takeWhile_cons_of_neg (by simp [isWordChar, hspace])] at hd
      cases hd

omit [Alphabetic] in
/-- The word of a connective. -/
theorem takeWhile_connective {word text : Text} (rest : Text)
    (hword : word.all isWordChar = true)
    (hspace : text.head?.any isWhitespace = true) :
    (word ++ (text ++ rest)).takeWhile isWordChar = word ∧
      (word ++ (text ++ rest)).dropWhile isWordChar = text ++ rest := by
  have hstop : ∀ c ∈ (text ++ rest).head?, isWordChar c = false := by
    cases text with
    | nil => cases hspace
    | cons first tail =>
        intro c hc
        cases hc
        exact congrArg (!·) hspace
  exact ⟨takeWhile_word (List.all_eq_true.mp hword) hstop,
    dropWhile_word (List.all_eq_true.mp hword) hstop⟩

omit [Alphabetic] in
theorem plain_connective {word text : Text} (rest : Text)
    (hword : word.all isWordChar = true)
    (hascii : word.all (fun c => c.utf8Size == 1) = true)
    (hspace : text.head?.any isWhitespace = true) : Plain (word ++ (text ++ rest)) := by
  intro c hc
  rw [(takeWhile_connective rest hword hspace).1] at hc
  exact beq_iff_eq.mp (List.all_eq_true.mp hascii c hc)

omit [Alphabetic] in
/-- A word between spaces is read as a whole. -/
theorem read_connective (outer : List Frame) (frame : Frame) (before : Space) {word text : Text}
    (rest : Text) (hne : word ≠ []) (hword : word.all isWordChar = true)
    (hascii : word.all (fun c => c.utf8Size == 1) = true)
    (hspace : text.head?.any isWhitespace = true) :
    Scan.rest ⟨outer, frame, .connective, before.text ++ (word ++ (text ++ rest))⟩ =
        word ++ (text ++ rest) ∧
      connective (word ++ (text ++ rest)) =
        if word = "and".toList then .and else if word = "or".toList then .or else .other := by
  constructor
  · apply before.dropWhile
    intro c hc
    cases word with
    | nil => exact absurd rfl hne
    | cons first tail =>
        cases hc
        have hfirst : isWordChar c = true := List.all_eq_true.mp hword c List.mem_cons_self
        simpa [isWordChar] using hfirst
  · rw [connective_plain (plain_connective rest hword hascii hspace),
      (takeWhile_connective rest hword hspace).1]

/-- A conjunction goes on. -/
theorem step_and (outer : List Frame) (frame : Frame) (before : Space) {text : Text}
    (rest : Text) (hspace : text.head?.any isWhitespace = true) :
    Scan.step ⟨outer, frame, .connective,
        before.text ++ ("and".toList ++ (text ++ rest))⟩ =
      some ⟨outer, frame, .operand, text ++ rest⟩ := by
  have hword : "and".toList.all isWordChar = true := by decide
  obtain ⟨hrest, hkind⟩ :=
    read_connective outer frame before rest (by decide) hword (by decide) hspace
  simp only [Scan.step, hrest, hkind, if_true, (takeWhile_connective rest hword hspace).2]

/-- A disjunction goes on. -/
theorem step_or (outer : List Frame) (frame : Frame) (before : Space) {text : Text}
    (rest : Text) (hspace : text.head?.any isWhitespace = true) :
    Scan.step ⟨outer, frame, .connective,
        before.text ++ ("or".toList ++ (text ++ rest))⟩ =
      some ⟨outer, frame.next, .operand, text ++ rest⟩ := by
  have hword : "or".toList.all isWordChar = true := by decide
  have hother : "or".toList ≠ "and".toList := by decide
  obtain ⟨hrest, hkind⟩ :=
    read_connective outer frame before rest (by decide) hword (by decide) hspace
  simp only [Scan.step, hrest, hkind, if_neg hother, if_true,
    (takeWhile_connective rest hword hspace).2]

/-- A comparison is an operand. -/
theorem step_comparison (outer : List Frame) (frame : Frame)
    {comparison : MarkerComparison} {rest : Text} (hspaced : comparison.Spaced rest) :
    Scan.step ⟨outer, frame, .operand,
        (Derivation.comparison comparison).text ++ rest⟩ =
      some ⟨outer, frame.push (Derivation.comparison comparison).formula, .connective,
        rest⟩ := by
  obtain ⟨hlex, -⟩ := lexExpression_comparison hspaced
  obtain ⟨c, tail, hcons, hc⟩ := comparison.left.starts
  simp only [startsValue, Bool.and_eq_true, Bool.not_eq_true', bne_iff_ne] at hc
  have hbody : comparison.body ++ rest = c :: (tail ++ (comparison.beforeOp.text ++
      (comparison.op.text ++ (comparison.beforeRight.text ++
        comparison.right.text))) ++ rest) := by
    simp [MarkerComparison.body, hcons]
  have hrest : Scan.rest ⟨outer, frame, .operand,
      (Derivation.comparison comparison).text ++ rest⟩ = comparison.body ++ rest := by
    rw [Scan.rest, Derivation.text, List.append_assoc]
    apply comparison.beforeLeft.dropWhile
    intro d hd
    rw [hbody] at hd
    cases hd
    exact hc.1.1
  have hstep : Scan.step ⟨outer, frame, .operand,
      (Derivation.comparison comparison).text ++ rest⟩ =
        Scan.stepExpression ⟨outer, frame, .operand,
          (Derivation.comparison comparison).text ++ rest⟩ := by
    simp only [Scan.step, hrest, hbody, if_neg hc.2]
  rw [hstep, Scan.stepExpression, hrest, hlex, Derivation.formula]
  cases hexpr : comparison.expression with
  | none => rfl
  | some expr =>
      dsimp only
      rw [hspaced.lowered expr hexpr]
      rfl

/-- How the frame of a rule is before it is read. -/
def Rule.StartsIn : Rule → Frame → Prop
  | markerExpr, _ => True
  | markerAnd, frame => frame.conjunction = none
  | markerOr, frame => frame = .empty

/-- How it is after. -/
def Rule.EndsIn : Rule → Frame → Option Formula → Frame → Prop
  | markerOr, _, formula, frame' => frame'.value = formula
  | _, frame, formula, frame' => frame' = frame.push formula

omit [Alphabetic] in
theorem plain_parenthesis {rest : Text} (hplain : Plain rest) : Plain (')' :: rest) := by
  intro c hc
  rw [List.takeWhile_cons_of_pos (by decide)] at hc
  cases hc with
  | head => rfl
  | tail _ hmem => exact hplain c hmem

/-- A parenthesis is closed. -/
theorem step_close (outer : List Frame) (frame inner : Frame) (after : Space)
    {rest : Text} (hplain : Plain rest) :
    Scan.step ⟨frame :: outer, inner, .connective, after.text ++ ')' :: rest⟩ =
      some ⟨outer, frame.push inner.value, .connective, rest⟩ := by
  have hrest : Scan.rest ⟨frame :: outer, inner, .connective,
      after.text ++ ')' :: rest⟩ = ')' :: rest := by
    apply after.dropWhile
    intro c hc
    cases hc
    decide
  have hword : (')' :: rest).takeWhile isWordChar = ')' :: rest.takeWhile isWordChar :=
    List.takeWhile_cons_of_pos (by decide)
  have hkind : connective (')' :: rest) = .other := by
    rw [connective_plain (plain_parenthesis hplain), hword, if_neg, if_neg]
    · exact fun heq => absurd (List.cons.inj heq).1 (by decide)
    · exact fun heq => absurd (List.cons.inj heq).1 (by decide)
  simp only [Scan.step, hrest, hkind, Scan.stepClose, if_pos]

/-- A parenthesis is opened. -/
theorem step_open (outer : List Frame) (frame : Frame) (before : Space) (rest : Text) :
    Scan.step ⟨outer, frame, .operand, before.text ++ '(' :: rest⟩ =
      some ⟨frame :: outer, .empty, .operand, rest⟩ := by
  have hrest : Scan.rest ⟨outer, frame, .operand, before.text ++ '(' :: rest⟩ =
      '(' :: rest := by
    apply before.dropWhile
    intro c hc
    cases hc
    decide
  simp only [Scan.step, hrest, if_pos]

/-- The scanner reads a spaced derivation. -/
theorem Derivation.runs {rule : Rule} (derivation : Derivation rule) {rest : Text}
    (hspaced : derivation.Spaced rest) (hplain : Plain rest) (outer : List Frame)
    (frame : Frame) (hstart : rule.StartsIn frame) :
    ∃ frame', rule.EndsIn frame derivation.formula frame' ∧
      Scan.Runs ⟨outer, frame, .operand, derivation.text ++ rest⟩
        ⟨outer, frame', .connective, rest⟩ := by
  induction derivation generalizing rest outer frame with
  | comparison comparison => exact ⟨_, rfl, .one (step_comparison outer frame hspaced)⟩
  | parenthesized before marker after ih =>
      obtain ⟨inner, hinner, hruns⟩ := ih hspaced
        (after.plain (plain_parenthesis hplain)) (frame :: outer) .empty rfl
      change inner.value = marker.formula at hinner
      have htext : (parenthesized before marker after).text ++ rest =
          before.text ++ '(' :: (marker.text ++ (after.text ++ ')' :: rest)) := by
        simp [Derivation.text]
      have hopen := step_open outer frame before
        (marker.text ++ (after.text ++ ')' :: rest))
      have hclose := step_close outer frame inner after hplain
      rw [← htext] at hopen
      rw [hinner] at hclose
      exact ⟨_, rfl, (Scan.Runs.one hopen).trans (hruns.trans (.one hclose))⟩
  | expr expr ih => exact ih hspaced hplain outer frame trivial
  | and left before right ihLeft ihRight =>
      obtain ⟨hleft, hspace, hright⟩ := hspaced
      have hword : Plain ("and".toList ++ (right.text ++ rest)) :=
        plain_connective rest (by decide) (by decide) hspace
      obtain ⟨_, rfl, hruns⟩ := ihLeft hleft (before.plain hword) outer frame hstart
      obtain ⟨_, rfl, hruns'⟩ := ihRight hright hplain outer
        (frame.push left.formula) trivial
      have htext : (and left before right).text ++ rest =
          left.text ++ (before.text ++ ("and".toList ++ (right.text ++ rest))) := by
        simp [Derivation.text]
      have hstep := step_and outer (frame.push left.formula) before rest hspace
      refine ⟨_, ?_, htext ▸ hruns.trans ((Scan.Runs.one hstep).trans hruns')⟩
      change (frame.push left.formula).push right.formula = frame.push _
      change frame.conjunction = none at hstart
      simp only [Frame.push, hstart]
      rfl
  | conjunction conjunction ih =>
      cases hstart
      obtain ⟨_, rfl, hruns⟩ := ih hspaced hplain outer .empty rfl
      exact ⟨Frame.push .empty conjunction.formula, rfl, hruns⟩
  | or left before right ihLeft ihRight =>
      obtain ⟨hleft, hspace, hright⟩ := hspaced
      have hword : Plain ("or".toList ++ (right.text ++ rest)) :=
        plain_connective rest (by decide) (by decide) hspace
      obtain ⟨before', hvalue, hruns⟩ := ihLeft hleft (before.plain hword) outer frame hstart
      change before'.value = left.formula at hvalue
      obtain ⟨_, rfl, hruns'⟩ := ihRight hright hplain outer before'.next rfl
      have htext : (or left before right).text ++ rest =
          left.text ++ (before.text ++ ("or".toList ++ (right.text ++ rest))) := by
        simp [Derivation.text]
      have hstep := step_or outer before' before rest hspace
      refine ⟨_, ?_, htext ▸ hruns.trans ((Scan.Runs.one hstep).trans hruns')⟩
      change join .or before'.value right.formula = _
      rw [hvalue]
      rfl

omit [Alphabetic] in
theorem join_named {combine : Formula → Formula → Formula}
    (hcombine : ∀ left right,
      (combine left right).isNamed = (left.isNamed && right.isNamed))
    {left right : Option Formula} (hleft : ∀ formula ∈ left, formula.isNamed = true)
    (hright : ∀ formula ∈ right, formula.isNamed = true) :
    ∀ formula ∈ join combine left right, formula.isNamed = true := by
  cases left with
  | none => exact hright
  | some left =>
      cases right with
      | none => exact hleft
      | some right =>
          intro formula hformula
          cases hformula
          rw [hcombine, hleft left rfl, hright right rfl]
          rfl

/-- The formula of a spaced derivation has no malformed names. -/
theorem Derivation.named {rule : Rule} (derivation : Derivation rule) {rest : Text}
    (hspaced : derivation.Spaced rest) :
    ∀ formula ∈ derivation.formula, formula.isNamed = true := by
  induction derivation generalizing rest with
  | comparison comparison =>
      intro formula hformula
      obtain ⟨expr, hexpr, rfl⟩ := Option.map_eq_some_iff.mp hformula
      exact (lexExpression_comparison hspaced).2 expr hexpr
  | parenthesized before marker after ih => exact ih hspaced
  | expr expr ih => exact ih hspaced
  | and left before right ihLeft ihRight =>
      exact join_named (fun _ _ => rfl) (ihLeft hspaced.1) (ihRight hspaced.2.2)
  | conjunction conjunction ih => exact ih hspaced
  | or left before right ihLeft ihRight =>
      exact join_named (fun _ _ => rfl) (ihLeft hspaced.1) (ihRight hspaced.2.2)

end Reading

/-! ## Evaluation -/

section Evaluation

variable [RangeOps ValidVersion] [RangeOps Text]

/-- The derivation is true: its formula holds, if any of its expressions are not
ignored. -/
def Derivation.Evaluates {rule : Rule} (derivation : Derivation rule)
    (env : MarkerEnvironment) (extras : ExtrasEnvironment) : Prop :=
  ∀ formula ∈ derivation.formula, formula.Holds (env.valuation extras)

variable [Alphabetic]

/-- The parser returns a tree for a spaced derivation. -/
theorem fromStr_spaced {below : Variable → Variable → Prop} {s : Interner}
    (hsound : Sound below s) (marker : Derivation .markerOr) (hspaced : marker.Spaced []) :
    ∃ tree s', (fromStr marker.text).run s = some (.ok tree, s') ∧ Sound below s' ∧
      Represents s' tree marker.formula := by
  have hplain : Plain [] := fun c hc => by cases hc
  obtain ⟨frame, hvalue, hruns⟩ := marker.runs hspaced hplain [] .empty rfl
  change frame.value = marker.formula at hvalue
  rw [List.append_nil] at hruns
  have haccepts : Scan.accepts ⟨[], frame, .connective, []⟩ = true := rfl
  have hstop := Scan.step_of_accepts haccepts
  cases parsed hsound marker.text with
  | panic hrun hruns' hpanics =>
      have hsame := hruns.end_unique hruns' hstop (Scan.step_of_panics hpanics)
      rw [← hsame, Scan.panics_of_accepts haccepts] at hpanics
      cases hpanics
  | error hrun hsound' hruns' hstop' hpanics hnot =>
      rw [← hruns.end_unique hruns' hstop hstop', haccepts] at hnot
      cases hnot
  | ok hrun hsound' hle hrepresents hruns' haccepts' =>
      have hsame := hruns.end_unique hruns' hstop (Scan.step_of_accepts haccepts')
      rw [← hsame, hvalue] at hrepresents
      exact ⟨_, _, hrun, hsound', hrepresents⟩

end Evaluation

/-! ## Concrete derivations -/

def Space.none : Space := ⟨[], List.forall_mem_nil _⟩

def Space.one : Space := ⟨[' '], List.all_eq_true.mp (by decide)⟩

/-- `os_name == 'content'` or `sys_platform == 'content'`, with one space around the
operator. -/
def Derivation.equals (name : String) (key : MarkerValueString)
    (hname : (name, .markerEnvString key) ∈ markerVars) (before : Space) (content : Text)
    (hcontent : content.all (· != '\x27') = true) : Derivation .markerExpr :=
  .comparison ⟨before, .name name (.markerEnvString key) hname, .one,
    .versionCmp "==" .equal (by decide), .one,
    .quoted '\x27' content rfl (List.all_eq_true.mp hcontent)⟩

/-- `os_name == 'nt' and sys_platform == 'linux'` -/
def windowsAndLinux : Derivation .markerOr :=
  .conjunction (.and
    (.expr (.equals "os_name" .osName (by decide) .none "nt".toList (by decide))) .one
    (.equals "sys_platform" .sysPlatform (by decide) .one "linux".toList (by decide)))

/-- `os_name == 'a' and(os_name == 'b')` -/
def unspaced : Derivation .markerOr :=
  .conjunction (.and
    (.expr (.equals "os_name" .osName (by decide) .none "a".toList (by decide))) .one
    (.parenthesized .none (.conjunction (.expr
      (.equals "os_name" .osName (by decide) .none "b".toList (by decide)))) .none))

section Concrete

local instance : Alphabetic := asciiAlphabetic

end Concrete

end Uv.Pep508
