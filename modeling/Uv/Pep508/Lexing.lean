import Uv.Pep508.Parse

/-!
# What the parser reads

The functions that read a value, an operator or a whole expression depend only
on the characters that are left.  Each is stated once more on texts, without
positions, warnings and slices, and the parser's functions are shown to read the
same: none of their slices panics.
-/

namespace Uv.Pep508

open Uv.Core Uv.Pep440
open Uv.Pep440.VersionSpecifier (isWhitespace)

/-! ## Readers -/

section Lexes

variable {α β : Type}

/-- The result and the state after an action. -/
abbrev ParserM.exec (action : ParserM α) (s : ParserState) :
    Option (Except Pep508Error α × ParserState) :=
  action.run.run s

/-- What an action reads in a state: it returns a value and leaves some of the
characters, or it fails.  The interner stays as it is. -/
inductive ReadsAs (action : ParserM α) (s : ParserState) : Option (α × Text) → Prop
  | ok {value : α} {cursor : Cursor} {reports : List MarkerWarningKind}
      (hvalid : cursor.Valid)
      (hrun : action.exec s = some (.ok value, ⟨cursor, reports, s.interner⟩)) :
      ReadsAs action s (some (value, cursor.chars))
  | error {e : Pep508Error} {cursor : Cursor} {reports : List MarkerWarningKind}
      (hvalid : cursor.Valid)
      (hrun : action.exec s = some (.error e, ⟨cursor, reports, s.interner⟩)) :
      ReadsAs action s none

/-- The action takes off the characters what the function does, or fails where
it does. -/
def Lexes (action : ParserM α) (lex : Text → Option (α × Text)) : Prop :=
  ∀ s : ParserState, s.cursor.Valid → ReadsAs action s (lex s.cursor.chars)

theorem exec_bind_ok {action : ParserM α} {next : α → ParserM β}
    {s s' : ParserState} {value : α}
    (hrun : action.exec s = some (.ok value, s')) :
    (action >>= next).exec s = (next value).exec s' := by
  change Option.bind (action.exec s) _ = _
  rw [hrun]
  rfl

theorem exec_bind_error {action : ParserM α} {next : α → ParserM β}
    {s s' : ParserState} {e : Pep508Error}
    (hrun : action.exec s = some (.error e, s')) :
    (action >>= next).exec s = some (.error e, s') := by
  change Option.bind (action.exec s) _ = _
  rw [hrun]
  rfl

theorem exec_bind_none {action : ParserM α} {next : α → ParserM β}
    {s : ParserState} (hrun : action.exec s = none) :
    (action >>= next).exec s = none := by
  change Option.bind (action.exec s) _ = _
  rw [hrun]
  rfl

theorem ReadsAs.of_exec_eq {action action' : ParserM α} {s s' : ParserState}
    {read : Option (α × Text)} (hread : ReadsAs action' s' read)
    (hexec : action.exec s = action'.exec s') (hinterner : s.interner = s'.interner) :
    ReadsAs action s read := by
  cases hread with
  | ok hvalid hrun =>
      apply ReadsAs.ok hvalid
      rw [hexec, hrun, hinterner]
  | error hvalid hrun =>
      apply ReadsAs.error hvalid
      rw [hexec, hrun, hinterner]

namespace Lexes

theorem pure (value : α) : Lexes (Pure.pure value) fun text => some (value, text) :=
  fun _ hvalid => .ok hvalid rfl

theorem fail (message : String) (start len : ℕ) :
    Lexes (ParserM.fail message start len : ParserM α) fun _ => none :=
  fun _ hvalid => .error hvalid rfl

theorem congr {action : ParserM α} {lex lex' : Text → Option (α × Text)}
    (hlexes : Lexes action lex) (hsame : ∀ text, lex text = lex' text) :
    Lexes action lex' := by
  obtain rfl : lex = lex' := funext hsame
  exact hlexes

theorem bind {action : ParserM α} {next : α → ParserM β}
    {lex : Text → Option (α × Text)} {lex' : α → Text → Option (β × Text)}
    (haction : Lexes action lex) (hnext : ∀ value, Lexes (next value) (lex' value)) :
    Lexes (action >>= next) fun text => (lex text).bind fun read =>
      lex' read.1 read.2 := by
  intro s hvalid
  have hread := haction s hvalid
  dsimp only
  generalize lex s.cursor.chars = read at hread
  cases hread with
  | ok hcursor hrun =>
      exact (hnext _ _ hcursor).of_exec_eq (exec_bind_ok hrun) rfl
  | error hcursor hrun => exact .error hcursor (exec_bind_error hrun)

/-- Looking at the cursor without moving it. -/
theorem look {observe : Cursor → α} {next : α → ParserM β}
    {lex : Text → Option (β × Text)} (hnext : ∀ value, Lexes (next value) lex) :
    Lexes (ParserM.onCursor (fun cursor => (observe cursor, cursor)) >>= next) lex :=
  fun s hvalid => (hnext (observe s.cursor) s hvalid).of_exec_eq rfl rfl

/-- Looking at the characters that are left. -/
theorem lookChars {observe : Cursor → α} {next : α → ParserM β}
    {lex : Text → Option (β × Text)}
    (hnext : ∀ s : ParserState, s.cursor.Valid →
      ReadsAs (next (observe s.cursor)) s (lex s.cursor.chars)) :
    Lexes (ParserM.onCursor (fun cursor => (observe cursor, cursor)) >>= next) lex :=
  fun s hvalid => (hnext s hvalid).of_exec_eq rfl rfl

theorem eatWhitespace :
    Lexes ParserM.eatWhitespace fun text => some ((), text.dropWhile isWhitespace) := by
  intro s hvalid
  have hchars : s.cursor.eatWhitespace.chars = s.cursor.chars.dropWhile isWhitespace := by
    rw [Cursor.eatWhitespace, Cursor.nextWhile_eq]
  dsimp only
  rw [← hchars]
  exact .ok hvalid.nextWhile rfl

/-- A word and its slice. -/
theorem word {condition : Char → Bool} {next : ℕ × ℕ → Text → ParserM β}
    {lex : Text → Text → Option (β × Text)}
    (hnext : ∀ span word, Lexes (next span word) (lex word)) :
    Lexes (ParserM.takeWhile condition >>= fun span =>
        ParserM.slice span.1 span.2 >>= next span)
      fun text => lex (text.takeWhile condition) (text.dropWhile condition) := by
  intro s hvalid
  have hafter : s.cursor.takeWhile condition =
      ((s.cursor.pos, byteLength (s.cursor.chars.takeWhile condition)),
        ⟨s.cursor.input, s.cursor.chars.dropWhile condition,
          s.cursor.pos + byteLength (s.cursor.chars.takeWhile condition)⟩) := by
    rw [Cursor.takeWhile, Cursor.nextWhile_eq, Nat.add_sub_cancel_left]
  have hsplit := (List.takeWhile_append_dropWhile (p := condition)
    (l := s.cursor.chars)).symm
  have htake : (ParserM.takeWhile condition).exec s =
      some (.ok (s.cursor.pos, byteLength (s.cursor.chars.takeWhile condition)),
        ⟨⟨s.cursor.input, s.cursor.chars.dropWhile condition,
          s.cursor.pos + byteLength (s.cursor.chars.takeWhile condition)⟩,
          s.reports, s.interner⟩) := by
    change some (Except.ok (s.cursor.takeWhile condition).1,
      (⟨(s.cursor.takeWhile condition).2, s.reports, s.interner⟩ : ParserState)) = _
    rw [hafter]
  have hslice : ∀ rest pos, (ParserM.slice s.cursor.pos
      (byteLength (s.cursor.chars.takeWhile condition))).exec
        ⟨⟨s.cursor.input, rest, pos⟩, s.reports, s.interner⟩ =
      some (.ok (s.cursor.chars.takeWhile condition),
        ⟨⟨s.cursor.input, rest, pos⟩, s.reports, s.interner⟩) := by
    intro rest pos
    change Option.map _ (s.cursor.slice _ _) = _
    rw [hvalid.slice_of_prefix hsplit]
    rfl
  have hread := hnext
    (s.cursor.pos, byteLength (s.cursor.chars.takeWhile condition))
    (s.cursor.chars.takeWhile condition)
    ⟨⟨s.cursor.input, s.cursor.chars.dropWhile condition,
      s.cursor.pos + byteLength (s.cursor.chars.takeWhile condition)⟩,
      s.reports, s.interner⟩ (hvalid.append hsplit)
  refine hread.of_exec_eq ?_ rfl
  rw [exec_bind_ok htake, exec_bind_ok (hslice _ _)]

end Lexes

end Lexes

/-! ## Values, operators and expressions -/

/-- One expected character. -/
def lexChar (expected : Char) : Text → Option (Unit × Text)
  | [] => none
  | c :: rest => if c = expected then some ((), rest) else none

/-- What `not` needs after it. -/
def lexNotIn : Text → Option (MarkerOperator × Text)
  | [] => none
  | c :: rest =>
      if isWhitespace c then do
        let ((), rest) ← lexChar 'i' (rest.dropWhile isWhitespace)
        let ((), rest) ← lexChar 'n' rest
        some (.notIn, rest)
      else none

/-- What follows an opening quotation mark. -/
def lexQuoted (quotationMark : Char) (text : Text) : Option (MarkerValue × Text) := do
  let ((), rest) ← lexChar quotationMark (text.dropWhile (· != quotationMark))
  some (.quotedString (text.takeWhile (· != quotationMark)), rest)

/-- A reserved value. -/
def lexKey (text : Text) : Option (MarkerValue × Text) :=
  (MarkerValue.fromStr (text.takeWhile isKeyChar)).map (·, text.dropWhile isKeyChar)

def lexValue (text : Text) : Option (MarkerValue × Text) :=
  match text with
  | [] => none
  | c :: rest =>
      if quotationMarks.contains c then lexQuoted c rest else lexKey text

section Lexing

variable [Alphabetic]

/-- The characters an operator that starts like the text is made of. -/
def operatorChar (text : Text) : Char → Bool :=
  if text.head?.any Alphabetic.isAlphabetic then isOperatorWord else isOperatorSymbol

def lexOperator (text : Text) : Option (MarkerOperator × Text) :=
  let operator := text.takeWhile (operatorChar text)
  let rest := text.dropWhile (operatorChar text)
  if operator = "not".toList then lexNotIn rest
  else (MarkerOperator.fromStr operator).map (·, rest)

/-- The typed expression of two values and an operator; `none` for an error. -/
def typed (lValue : MarkerValue) (operator : MarkerOperator) (rValue : MarkerValue) :
    Option (Option MarkerExpression) :=
  match (typedExpression lValue operator rValue).run.run [] with
  | some (.ok expr, _) => some expr
  | _ => none

/-- A whole expression; `none` inside is for one that is ignored. -/
def lexExpression (text : Text) : Option (Option MarkerExpression × Text) := do
  let (lValue, text) ← lexValue (text.dropWhile isWhitespace)
  let (operator, text) ← lexOperator (text.dropWhile isWhitespace)
  let (rValue, text) ← lexValue (text.dropWhile isWhitespace)
  let expr ← typed lValue operator rValue
  some (expr, text)

end Lexing

/-! ### What is left -/

theorem lexChar_eq_some {expected : Char} {text rest : Text} :
    lexChar expected text = some ((), rest) ↔ text = expected :: rest := by
  cases text with
  | nil => simp [lexChar]
  | cons c text =>
      rw [lexChar]
      split <;> simp_all

theorem lexChar_suffix {expected : Char} {text rest : Text}
    (hlex : lexChar expected text = some ((), rest)) : rest <:+ text := by
  rw [lexChar_eq_some.mp hlex]
  exact List.suffix_cons expected rest

theorem lexNotIn_suffix {text rest : Text} {operator : MarkerOperator}
    (hlex : lexNotIn text = some (operator, rest)) : rest <:+ text := by
  cases text with
  | nil => cases hlex
  | cons c text =>
      rw [lexNotIn] at hlex
      split at hlex
      · simp only [Option.bind_eq_bind, Option.bind_eq_some_iff] at hlex
        obtain ⟨⟨_, afterI⟩, hi, ⟨_, afterN⟩, hn, heq⟩ := hlex
        cases heq
        calc
          afterN <:+ afterI := lexChar_suffix hn
          _ <:+ text.dropWhile isWhitespace := lexChar_suffix hi
          _ <:+ text := List.dropWhile_suffix _
          _ <:+ c :: text := List.suffix_cons c text
      · cases hlex

theorem lexValue_suffix {text rest : Text} {value : MarkerValue}
    (hlex : lexValue text = some (value, rest)) : rest <:+ text := by
  cases text with
  | nil => cases hlex
  | cons c text =>
      rw [lexValue] at hlex
      split at hlex
      · simp only [lexQuoted, Option.bind_eq_bind, Option.bind_eq_some_iff] at hlex
        obtain ⟨⟨_, after⟩, hquote, heq⟩ := hlex
        cases heq
        calc
          after <:+ text.dropWhile (· != c) := lexChar_suffix hquote
          _ <:+ text := List.dropWhile_suffix _
          _ <:+ c :: text := List.suffix_cons c text
      · obtain ⟨_, -, heq⟩ := Option.map_eq_some_iff.mp hlex
        cases heq
        exact List.dropWhile_suffix _

section Suffix

variable [Alphabetic]

theorem lexOperator_suffix {text rest : Text} {operator : MarkerOperator}
    (hlex : lexOperator text = some (operator, rest)) : rest <:+ text := by
  simp only [lexOperator] at hlex
  split at hlex
  · exact (lexNotIn_suffix hlex).trans (List.dropWhile_suffix _)
  · obtain ⟨_, -, heq⟩ := Option.map_eq_some_iff.mp hlex
    cases heq
    exact List.dropWhile_suffix _

theorem lexExpression_suffix {text rest : Text} {expr : Option MarkerExpression}
    (hlex : lexExpression text = some (expr, rest)) : rest <:+ text := by
  simp only [lexExpression, Option.bind_eq_bind, Option.bind_eq_some_iff] at hlex
  obtain ⟨⟨_, afterL⟩, hl, ⟨_, afterOperator⟩, hoperator, ⟨_, afterR⟩, hr, _, -, heq⟩ :=
    hlex
  cases heq
  calc
    afterR <:+ afterOperator := (lexValue_suffix hr).trans (List.dropWhile_suffix _)
    _ <:+ afterL := (lexOperator_suffix hoperator).trans (List.dropWhile_suffix _)
    _ <:+ text := (lexValue_suffix hl).trans (List.dropWhile_suffix _)

end Suffix

namespace Lexes

/-- The next character, if there is one. -/
def uncons {β : Type} (lex : Char → Text → Option (β × Text)) :
    Text → Option (β × Text)
  | [] => none
  | c :: rest => lex c rest

/-- Reading one character. -/
theorem next {β : Type} {next : Option (ℕ × Char) → ParserM β}
    {lex : Char → Text → Option (β × Text)}
    (hend : ∀ s : ParserState, s.cursor.Valid → s.cursor.chars = [] →
      ReadsAs (next none) s none)
    (hchar : ∀ pos c, Lexes (next (some (pos, c))) (lex c)) :
    Lexes (ParserM.next >>= next) (uncons lex) := by
  intro s hvalid
  have hexec : ∀ read, s.cursor.next = read →
      ParserM.next.exec s = some (.ok read.1, ⟨read.2, s.reports, s.interner⟩) := by
    rintro _ rfl
    rfl
  cases hchars : s.cursor.chars with
  | nil =>
      have hrun := hexec (none, s.cursor) (by rw [Cursor.next, hchars])
      exact (hend s hvalid hchars).of_exec_eq (exec_bind_ok hrun) rfl
  | cons c rest =>
      have hrun := hexec (some (s.cursor.pos, c),
        ⟨s.cursor.input, rest, s.cursor.pos + c.utf8Size⟩) (by rw [Cursor.next, hchars])
      have hcursor : Cursor.Valid
          ⟨s.cursor.input, rest, s.cursor.pos + c.utf8Size⟩ := by
        have hsplit : s.cursor.chars = [c] ++ rest := hchars
        simpa using hvalid.append hsplit
      exact (hchar s.cursor.pos c
        ⟨⟨s.cursor.input, rest, s.cursor.pos + c.utf8Size⟩, s.reports, s.interner⟩
        hcursor).of_exec_eq (exec_bind_ok hrun) rfl

end Lexes

theorem lexes_nextExpectChar (expected : Char) (spanStart : ℕ) :
    Lexes (ParserM.nextExpectChar expected spanStart) (lexChar expected) := by
  have hread : Lexes (ParserM.nextExpectChar expected spanStart)
      (Lexes.uncons fun c rest => lexChar expected (c :: rest)) := by
    refine Lexes.next (fun s hvalid _ => Lexes.fail _ _ _ s hvalid) fun pos c => ?_
    by_cases heq : c = expected
    · simp only [lexChar, if_pos heq]
      exact .pure ()
    · simp only [lexChar, if_neg heq]
      exact .fail _ _ _
  exact hread.congr fun text => by cases text <;> rfl

theorem lexes_parseNotIn : Lexes parseNotIn lexNotIn := by
  have hread : Lexes parseNotIn
      (Lexes.uncons fun c rest => lexNotIn (c :: rest)) := by
    refine Lexes.next (fun s hvalid _ => Lexes.look (fun _ => .fail _ _ _) s hvalid)
      fun pos c => ?_
    by_cases hspace : isWhitespace c = true
    · simp only [lexNotIn, if_pos hspace]
      exact (Lexes.eatWhitespace.bind fun _ => .look fun start =>
        (lexes_nextExpectChar 'i' start).bind fun _ => .look fun start =>
          (lexes_nextExpectChar 'n' start).bind fun _ => .pure MarkerOperator.notIn)
    · simp only [lexNotIn, if_neg hspace]
      exact .fail _ _ _
  exact hread.congr fun text => by cases text <;> rfl

theorem Lexes.ofReport {α : Type} {action : ReportM α} (start len : ℕ)
    (hrun : ∃ result, action.run.run [] = some result) :
    Lexes (ParserM.ofReport action start len) fun text =>
      match action.run.run [] with
      | some (.ok value, _) => some (value, text)
      | _ => none := by
  intro s hvalid
  obtain ⟨⟨result, reports⟩, hresult⟩ := hrun
  have hexec : (ParserM.ofReport action start len).exec s =
      some (result.mapError fun message => ⟨message, start, len, s.cursor.input⟩,
        ⟨s.cursor, s.reports ++ reports, s.interner⟩) := by
    change Option.map _ (action.run.run []) = _
    rw [hresult]
    rfl
  dsimp only
  rw [hresult]
  cases result with
  | ok value => exact .ok hvalid hexec
  | error message => exact .error hvalid hexec

theorem lexes_parseQuoted (quotationMark : Char) (startPos : ℕ) :
    Lexes (parseQuoted quotationMark startPos) (lexQuoted quotationMark) :=
  Lexes.word fun _ word => (lexes_nextExpectChar quotationMark startPos).bind fun _ =>
    .pure (MarkerValue.quotedString word)

/-- What `parseKey` does with the word. -/
private def keyWord (span : ℕ × ℕ) (word : Text) : ParserM MarkerValue :=
  match MarkerValue.fromStr word with
  | some value => do
      ParserM.ofReport (reportDeprecated value) span.1 span.2
      Pure.pure value
  | none =>
      ParserM.fail ("Expected a quoted string or a valid marker name, found `" ++
        String.ofList word ++ "`") span.1 span.2

theorem lexes_parseKey : Lexes parseKey lexKey := by
  have hword : ∀ (span : ℕ × ℕ) (word : Text), Lexes (keyWord span word)
      fun text => (MarkerValue.fromStr word).map (·, text) := by
    intro span word
    unfold keyWord
    cases MarkerValue.fromStr word with
    | none => exact .fail _ _ _
    | some value =>
        have hreport : ∃ reports, (reportDeprecated value).run.run [] =
            some (.ok (), reports) := by
          unfold reportDeprecated
          split
          · exact ⟨_, rfl⟩
          · exact ⟨_, rfl⟩
        obtain ⟨reports, hreport⟩ := hreport
        refine ((Lexes.ofReport span.1 span.2 ⟨_, hreport⟩).bind fun _ =>
          .pure value).congr fun text => ?_
        rw [hreport]
        rfl
  exact Lexes.word hword

theorem lexes_parseMarkerValue : Lexes parseMarkerValue lexValue := by
  refine Lexes.lookChars fun s hvalid => ?_
  cases hchars : s.cursor.chars with
  | nil =>
      have hpeek : s.cursor.peek = none := by
        rw [Cursor.peek, hchars]
        rfl
      rw [hpeek]
      exact Lexes.look (fun _ => .fail _ _ _) s hvalid
  | cons c rest =>
      have hpeek : s.cursor.peek = some (s.cursor.pos, c) := by
        rw [Cursor.peek, hchars]
        rfl
      rw [hpeek, lexValue]
      dsimp only
      by_cases hquote : quotationMarks.contains c = true
      · have hread : Lexes (ParserM.next >>= fun _ => parseQuoted c s.cursor.pos)
            (Lexes.uncons fun _ => lexQuoted c) := by
          refine Lexes.next (fun s' hvalid' hend => ?_) fun _ _ => lexes_parseQuoted c _
          have hquoted := lexes_parseQuoted c s.cursor.pos s' hvalid'
          rwa [hend] at hquoted
        have hhere := hread s hvalid
        rw [hchars] at hhere
        simp only [if_pos hquote]
        exact hhere
      · have hhere := lexes_parseKey s hvalid
        rw [hchars] at hhere
        simp only [if_neg hquote]
        exact hhere

section Lexing

variable [Alphabetic]

/-- What `parseMarkerOperator` does with the word. -/
private def operatorWord (span : ℕ × ℕ) (operator : Text) : ParserM MarkerOperator :=
  if operator = "not".toList then parseNotIn
  else
    match MarkerOperator.fromStr operator with
    | some operator => Pure.pure operator
    | none =>
        ParserM.fail ("Expected a valid marker operator (such as `>=` or `not in`), found `" ++
          String.ofList operator ++ "`") span.1 span.2

theorem lexes_parseMarkerOperator : Lexes parseMarkerOperator lexOperator := by
  refine Lexes.lookChars fun s hvalid => ?_
  have hoperator : ∀ (span : ℕ × ℕ) (operator : Text), Lexes (operatorWord span operator)
      fun rest => if operator = "not".toList then lexNotIn rest
        else (MarkerOperator.fromStr operator).map (·, rest) := by
    intro span operator
    unfold operatorWord
    by_cases hnot : operator = "not".toList
    · simp only [if_pos hnot]
      exact lexes_parseNotIn
    · simp only [if_neg hnot]
      cases MarkerOperator.fromStr operator with
      | none => exact .fail _ _ _
      | some operator => exact .pure operator
  exact Lexes.word hoperator s hvalid

end Lexing

end Uv.Pep508
