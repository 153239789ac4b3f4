import Uv.Core.Running
import Uv.Pep508.Parse

/-!
# Requirements

A requirement has a name, extras, version specifiers or a URL, and a marker.  It is read with
the cursor that the markers are read with; a slice outside the input and an unwrapped error
have no result.

How a URL is parsed is a parameter, and so are the environment variables that are expanded to
tell whether a name is missing.  Names are kept in their normalized form.
-/

namespace Uv.Pep508

open Uv.Core Uv.Pep440
open Uv.Pep440.VersionSpecifier (isWhitespace)

/-- The cursor at a byte position of the same input. -/
def Cursor.atPos (cursor : Cursor) (pos : ℕ) : Option Cursor :=
  (dropBytes cursor.input pos).map (⟨cursor.input, ·, pos⟩)

/-- A message, or the error it is made from. -/
inductive Pep508ErrorSource (UrlError : Type) where
  | string (message : String)
  | specifier (error : ParseErrorKind)
  | urlError (error : UrlError)
  | unsupportedRequirement (message : String)

structure RequirementError (UrlError : Type) where
  message : Pep508ErrorSource UrlError
  start : ℕ
  len : ℕ
  input : Text

inductive VersionOrUrl (Url : Type) where
  | versionSpecifier (specifiers : List VersionSpecifier)
  | url (url : Url)

/-- A requirement with its normalized names. -/
structure Requirement (Url : Type) where
  name : Text
  extras : List Text
  versionOrUrl : Option (VersionOrUrl Url)
  marker : NodeId

/-! ## Missing names -/

/-- The part before the extras at the end, and the extras. -/
def splitExtras (given : Text) : Option (Text × Text) :=
  match given.reverse with
  | ']' :: chars =>
      let inner := chars.takeWhile (· ≠ ']')
      if inner.contains '[' then
        let extras := inner.takeWhile (· ≠ '[')
        some ((chars.drop (extras.length + 1)).reverse, '[' :: extras.reverse ++ [']'])
      else none
  | _ => none

def isAlphanumeric (c : Char) : Bool :=
  ('A' ≤ c && c ≤ 'Z') || ('a' ≤ c && c ≤ 'z') || ('0' ≤ c && c ≤ '9')

/-- The characters up to the colon after a scheme, and those after it. -/
def splitScheme (text : Text) : Option (Text × Text) :=
  let s := ((text.dropWhile (· ≤ ' ')).reverse.dropWhile (· ≤ ' ')).reverse
  match s with
  | [] => none
  | first :: _ =>
      if !first.isAlpha then none
      else
        match s.span fun c => isAlphanumeric c || c = '+' || c = '-' || c = '.' with
        | (scheme, ':' :: rest) => some (scheme, rest)
        | _ => none

/-- The stem and the extension of a file name. -/
def splitFile (file : Text) : Text × Option Text :=
  let extension := file.reverse.takeWhile (· ≠ '.')
  let stem := (file.reverse.drop (extension.length + 1)).reverse
  if file.contains '.' && !stem.isEmpty && file ≠ "..".toList then
    (stem, some extension.reverse)
  else (file, none)

def looksLikeArchive (file : Text) : Bool :=
  match splitFile file with
  | (_, none) => false
  | (stem, some extension) =>
      ["whl", "tbz", "txz", "tlz", "zip", "tgz", "tar"].any (·.toList = extension) ||
        (splitFile stem).2 = some "tar".toList &&
          ["bz2", "xz", "lz", "lzma", "gz"].any (·.toList = extension)

/-- Whether the text reads like a URL or a path, once the extras are taken off. -/
def looksLikeUrl (expanded : Text) : Bool :=
  let url := ((splitExtras expanded).map Prod.fst).getD expanded
  match url with
  | [] => false
  | first :: _ =>
      first = '\\' || first = '/' || first = '.' || (splitScheme url).isSome ||
        url.contains '/' || url.contains '\\' || looksLikeArchive url

section Parse

variable {Url UrlError α : Type}

/-- The cursor after the word, and whether the word looks like a requirement without a name. -/
def looksLikeUnnamedRequirement (expandEnvVars : Text → Text) (cursor : Cursor) :
    Option (Bool × Cursor) :=
  let ((start, len), cursor) := cursor.takeWhile (!isWhitespace ·)
  (cursor.slice start len).map fun url => (looksLikeUrl (expandEnvVars url), cursor)

/-! ## Reading -/

abbrev RequirementM (UrlError : Type) := RunM (RequirementError UrlError) ParserState

namespace RequirementM

/-- Read as in a marker. -/
def read (action : ParserM α) : RequirementM UrlError α :=
  ExceptT.mk fun s => (action.run.run s).map fun outcome =>
    (outcome.1.mapError fun e => ⟨.string e.message, e.start, e.len, e.input⟩, outcome.2)

def fail (message : Pep508ErrorSource UrlError) (start len : ℕ) : RequirementM UrlError α :=
  ExceptT.mk fun s => some (.error ⟨message, start, len, s.cursor.input⟩, s)

def peek : RequirementM UrlError (Option (ℕ × Char)) :=
  read (ParserM.onCursor fun cursor => (cursor.peek, cursor))

/-- A value that is there, or a panic. -/
def unwrap (value : Option α) : RequirementM UrlError α :=
  match value with
  | some value => pure value
  | none => RunM.diverge

end RequirementM

open RequirementM

variable (expandEnvVars : Text → Text)

/-- An error for a word that is no name: it may be a requirement without one. -/
def failUnnamed (pos : ℕ) (unnamed : String) (message : String) (start len : ℕ) :
    RequirementM UrlError α := do
  let cursor ← read (ParserM.onCursor fun cursor => (cursor, cursor))
  let clone ← unwrap (cursor.atPos pos)
  let (looks, clone) ← unwrap (looksLikeUnnamedRequirement expandEnvVars clone)
  if looks then fail (.unsupportedRequirement unnamed) pos (clone.pos - pos)
  else fail (.string message) start len

def isNameChar (c : Char) : Bool := isAlphanumeric c || c = '.' || c = '-' || c = '_'

def parseName : RequirementM UrlError Text := do
  let start ← read ParserM.pos
  match ← read ParserM.next with
  | none => fail (.string "Empty field is not allowed for PEP508") 0 1
  | some (index, c) =>
      if !isAlphanumeric c then
        failUnnamed expandEnvVars start ("URL requirement must be preceded by a package " ++
          "name. Add the name of the package before the URL (e.g., `package_name @ " ++
          "/path/to/file`).") ("Expected package name starting with an alphanumeric " ++
          "character, found `" ++ c.toString ++ "`") index c.utf8Size
      else do
        let _ ← read (ParserM.takeWhile isNameChar)
        let last ← read ParserM.pos
        let name ← read (ParserM.slice start (last - start))
        let c ← unwrap name.getLast?
        if !isAlphanumeric c then
          fail (.string ("Package name must end with an alphanumeric character, not `" ++
            c.toString ++ "`")) (last - c.utf8Size) c.utf8Size
        else unwrap (validateAndNormalize name)

/-- An extra: the identifier and the whitespace after it. -/
def parseExtra (bracketPos : ℕ) : RequirementM UrlError Text := do
  read ParserM.eatWhitespace
  match ← read ParserM.next with
  | none =>
      fail (.string ("Missing closing bracket (expected ']', found end of dependency " ++
        "specification)")) bracketPos 1
  | some (pos, c) =>
      if !isAlphanumeric c then
        fail (.string ("Expected an alphanumeric character starting the extra name, found `" ++
          c.toString ++ "`")) pos c.utf8Size
      else do
        let (start, len) ← read (ParserM.takeWhile isNameChar)
        let buffer ← read (ParserM.slice start len)
        match ← peek with
        | some (pos, other) =>
            if other ≠ ',' ∧ other ≠ ']' ∧ isWhitespace other = false then
              fail (.string ("Invalid character in extras name, expected an alphanumeric " ++
                "character, `-`, `_`, `.`, `,` or `]`, found `" ++ other.toString ++ "`"))
                pos other.utf8Size
            else pure ()
        | none => pure ()
        read ParserM.eatWhitespace
        unwrap (validateAndNormalize (c :: buffer))

/-- The loop of `parse_extras_cursor`. -/
def parseExtrasLoop (bracketPos : ℕ) : ℕ → Bool → List Text → RequirementM UrlError (List Text)
  | 0, _, _ => RunM.diverge
  | fuel + 1, isFirstIteration, extras => do
      match ← peek with
      | some (pos, c) =>
          if c = ']' then do
            let _ ← read ParserM.next
            pure extras
          else if c = ',' ∧ isFirstIteration then
            fail (.string ("Expected either alphanumerical character (starting the extra " ++
              "name) or `]` (ending the extras section), found `,`")) pos 1
          else if c ≠ ',' ∧ !isFirstIteration then
            fail (.string ("Expected either `,` (separating extras) or `]` (ending the " ++
              "extras section), found `" ++ c.toString ++ "`")) pos 1
          else do
            if c = ',' then
              let _ ← read ParserM.next
            let extra ← parseExtra bracketPos
            parseExtrasLoop bracketPos fuel false (extras ++ [extra])
      | none => do
          let extra ← parseExtra bracketPos
          parseExtrasLoop bracketPos fuel false (extras ++ [extra])

def parseExtrasCursor : RequirementM UrlError (List Text) := do
  match ← read (ParserM.onCursor (·.eatChar '[')) with
  | none => pure []
  | some bracketPos => do
      read ParserM.eatWhitespace
      let remaining ← read (ParserM.onCursor fun cursor => (cursor.remaining, cursor))
      parseExtrasLoop bracketPos (remaining + 1) true []

/-- The number of bytes of a URL and the cursor after it. -/
def takeUrl (input : Text) : Text → ℕ → ℕ → ℕ × Cursor
  | [], pos, len => (len, ⟨input, [], pos⟩)
  | c :: rest, pos, len =>
      let after : Cursor := ⟨input, rest, pos + c.utf8Size⟩
      if c = '\r' ∨ c = '\n' then (len, after)
      else if isWhitespace c ∧
          (rest.dropWhile isWhitespace).head?.all fun c => c = ';' || c = '#' then
        (len, after)
      else if (rest.head?.any fun c => c = ';' || c = '#') ∧
          (rest.tail.head?.any isWhitespace) then
        (len + c.utf8Size, after)
      else takeUrl input rest (pos + c.utf8Size) (len + c.utf8Size)

variable (parseUrl : Text → Except UrlError Url)

/-- `parse_url`. -/
def parseUrlCursor : RequirementM UrlError Url := do
  read ParserM.eatWhitespace
  let start ← read ParserM.pos
  let len ← read (ParserM.onCursor fun cursor => takeUrl cursor.input cursor.chars cursor.pos 0)
  let url ← read (ParserM.slice start len)
  if url.isEmpty then fail (.string "Expected URL") start len
  else
    match parseUrl url with
    | .error error => fail (.urlError error) start len
    | .ok url => pure url

def parseSpecifier (buffer : Text) (start last : ℕ) : RequirementM UrlError VersionSpecifier :=
  match VersionSpecifier.fromStr buffer with
  | .error error => fail (.specifier error) start (last - start)
  | .ok specifier => pure specifier

/-- `VersionSpecifiers` are in the order of their versions. -/
def collectSpecifiers (specifiers : List VersionSpecifier) : VersionOrUrl Url :=
  .versionSpecifier
    (specifiers.insertionSort fun left right => (compare left.version right.version).isLE)

/-- The loop of `parse_version_specifier`. -/
def specifiersLoop : ℕ → ℕ → Text → List VersionSpecifier →
    RequirementM UrlError (List VersionSpecifier)
  | 0, _, _, _ => RunM.diverge
  | fuel + 1, start, buffer, specifiers => do
      match ← peek with
      | none => do
          let last ← read ParserM.pos
          let specifier ← parseSpecifier buffer start last
          pure (specifiers ++ [specifier])
      | some (last, c) =>
          if c = ';' then do
            let specifier ← parseSpecifier buffer start last
            pure (specifiers ++ [specifier])
          else if c = ',' then do
            let specifier ← parseSpecifier buffer start last
            let _ ← read ParserM.next
            specifiersLoop fuel (last + 1) [] (specifiers ++ [specifier])
          else do
            let _ ← read ParserM.next
            specifiersLoop fuel start (buffer ++ [c]) specifiers

def parseVersionSpecifier : RequirementM UrlError (VersionOrUrl Url) := do
  let start ← read ParserM.pos
  let remaining ← read (ParserM.onCursor fun cursor => (cursor.remaining, cursor))
  collectSpecifiers <$> specifiersLoop (remaining + 1) start [] []

/-- The loop of `parse_version_specifier_parentheses`. -/
def parenthesesLoop (bracePos : ℕ) : ℕ → ℕ → Text → List VersionSpecifier →
    RequirementM UrlError (List VersionSpecifier)
  | 0, _, _, _ => RunM.diverge
  | fuel + 1, start, buffer, specifiers => do
      match ← read ParserM.next with
      | none =>
          fail (.string ("Missing closing parenthesis (expected ')', found end of " ++
            "dependency specification)")) bracePos 1
      | some (last, c) =>
          if c = ',' then do
            let specifier ← parseSpecifier buffer start last
            parenthesesLoop bracePos fuel (last + 1) [] (specifiers ++ [specifier])
          else if c = ')' then do
            let specifier ← parseSpecifier buffer start last
            pure (specifiers ++ [specifier])
          else parenthesesLoop bracePos fuel start (buffer ++ [c]) specifiers

def parseVersionSpecifierParentheses : RequirementM UrlError (VersionOrUrl Url) := do
  let bracePos ← read ParserM.pos
  let _ ← read ParserM.next
  read ParserM.eatWhitespace
  let start ← read ParserM.pos
  let remaining ← read (ParserM.onCursor fun cursor => (cursor.remaining, cursor))
  collectSpecifiers <$> parenthesesLoop bracePos (remaining + 1) start [] []

def unnamedUrl : String :=
  "URL requirement must be preceded by a package name. Add the name of the package before " ++
    "the URL (e.g., `package_name @ https://...`)."

/-- The URL or the version specifiers, if there are any. -/
def parseVersionOrUrl (start : ℕ) : RequirementM UrlError (Option (VersionOrUrl Url)) := do
  match ← peek with
  | none => pure none
  | some (pos, c) =>
      if c = '@' then do
        let _ ← read ParserM.next
        (some ∘ VersionOrUrl.url) <$> parseUrlCursor parseUrl
      else if c = '(' then some <$> parseVersionSpecifierParentheses
      else if "<=>~!".toList.contains c then some <$> parseVersionSpecifier
      else if c = ';' then pure none
      else
        failUnnamed expandEnvVars start unnamedUrl
          ("Expected one of `@`, `(`, `<`, `=`, `>`, `~`, `!`, `;`, found `" ++
            c.toString ++ "`") pos c.utf8Size

/-- Everything before the marker. -/
def parseHead : RequirementM UrlError (Text × List Text × Option (VersionOrUrl Url)) := do
  let start ← read ParserM.pos
  read ParserM.eatWhitespace
  let nameStart ← read ParserM.pos
  let name ← parseName expandEnvVars
  let nameEnd ← read ParserM.pos
  read ParserM.eatWhitespace
  let extras ← parseExtrasCursor
  read ParserM.eatWhitespace
  let requirementKind ← parseVersionOrUrl expandEnvVars parseUrl start
  if requirementKind.isNone then do
    let written ← read (ParserM.slice nameStart (nameEnd - nameStart))
    if looksLikeArchive written then do
      let cursor ← read (ParserM.onCursor fun cursor => (cursor, cursor))
      let clone ← unwrap (cursor.atPos start)
      fail (.unsupportedRequirement unnamedUrl) start (clone.pos - start)
    else pure (name, extras, requirementKind)
  else pure (name, extras, requirementKind)

variable [Alphabetic] [RangeOps ValidVersion] [RangeOps Text]

/-- The marker, if a semicolon follows. -/
def parseQuotedMarker : RequirementM UrlError (Option NodeId) := do
  read ParserM.eatWhitespace
  match ← peek with
  | some (_, ';') => do
      let _ ← read ParserM.next
      read parseMarkersCursor
  | _ => pure none

/-- The end of the requirement, where a comment may follow. -/
def parseRequirementEnd (name : Text) (extras : List Text)
    (versionOrUrl : Option (VersionOrUrl Url)) (marker : Option NodeId) :
    RequirementM UrlError (Requirement Url) := do
  read ParserM.eatWhitespace
  match ← read ParserM.next with
  | some (pos, c) =>
      if c ≠ '#' then
        fail (.string (if marker.isNone then
            "Expected end of input or `;`, found `" ++ c.toString ++ "`"
          else "Expected end of input, found `" ++ c.toString ++ "`")) pos c.utf8Size
      else pure ⟨name, extras, versionOrUrl, marker.getD .TRUE⟩
  | none => pure ⟨name, extras, versionOrUrl, marker.getD .TRUE⟩

/-- `parse_pep508_requirement`. -/
def parsePep508Requirement : RequirementM UrlError (Requirement Url) := do
  let (name, extras, versionOrUrl) ← parseHead expandEnvVars parseUrl
  let marker ← parseQuotedMarker
  parseRequirementEnd name extras versionOrUrl marker

/-- `FromStr for Requirement`. -/
def Requirement.fromStr (input : Text) :
    InternerM (Except (RequirementError UrlError) (Requirement Url)) := fun interner =>
  ((parsePep508Requirement expandEnvVars parseUrl).run.run ⟨.new input, [], interner⟩).map
    fun outcome => (outcome.1, outcome.2.interner)

end Parse

end Uv.Pep508
