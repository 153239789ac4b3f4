import Uv.Pep440.VersionOrder

/-!
# The version parser

The state is the input, a position in it and what has been read so far, as in
the source.  Cursor primitives return the moved parser; the ones that may
refuse to move (`bump_if` and its variants) return `none` instead of `false`.
The release numbers, which the source keeps inline up to four and on the heap
afterwards, are one list.
-/

namespace Uv.Pep440

/-- The bytes of an ASCII literal. -/
def ascii (text : String) : List Byte :=
  text.toList.map fun char => Fin.ofNat 256 char.toNat

namespace Byte

def isAsciiDigit (byte : Byte) : Bool := 48 ≤ byte.val && byte.val ≤ 57

def isAsciiUppercase (byte : Byte) : Bool := 65 ≤ byte.val && byte.val ≤ 90

def isAsciiLowercase (byte : Byte) : Bool := 97 ≤ byte.val && byte.val ≤ 122

def isAsciiAlphanumeric (byte : Byte) : Bool :=
  isAsciiDigit byte || isAsciiUppercase byte || isAsciiLowercase byte

/-- Space, `\t`, `\n`, form feed and `\r`. -/
def isAsciiWhitespace (byte : Byte) : Bool :=
  byte.val == 32 || byte.val == 9 || byte.val == 10 || byte.val == 12 ||
    byte.val == 13

def toAsciiLowercase (byte : Byte) : Byte :=
  if isAsciiUppercase byte then Fin.ofNat 256 (byte.val + 32) else byte

def eqIgnoreAsciiCase (left right : Byte) : Bool :=
  toAsciiLowercase left == toAsciiLowercase right

end Byte

/-- The kind of error that occurs when parsing a `Version`. -/
inductive ErrorKind where
  | wildcard
  | invalidDigit (got : Byte)
  | numberTooBig (bytes : List Byte)
  | noLeadingNumber
  | noLeadingReleaseNumber
  | localEmpty (precursor : Byte)
  | unexpectedEnd (version remaining : List Byte)
  deriving DecidableEq

/-- The kind of error that occurs when parsing a `VersionPattern`. -/
inductive PatternErrorKind where
  | version (err : ErrorKind)
  | wildcardNotTrailing
  deriving DecidableEq

/-- A version, possibly followed by a trailing wildcard. -/
structure VersionPattern where
  version : Version
  wildcard : Bool
  deriving DecidableEq

/-- `needle` is a prefix of `haystack`, ignoring ASCII case. -/
def startsWithIgnoreAsciiCase (needle haystack : List Byte) : Bool :=
  needle.length ≤ haystack.length &&
    (needle.zip haystack).all fun (b1, b2) => Byte.eqIgnoreAsciiCase b1 b2

/-- The loop of `parse_u64`; `bytes` is the whole slice, `n` the value so
far. -/
def parseU64Loop (bytes : List Byte) : List Byte → ℕ → Except ErrorKind ℕ
  | [], n => .ok n
  | byte :: rest, n =>
      if byte.val < 48 ∨ byte.val - 48 > 9 then .error (.invalidDigit byte)
      else if n * 10 + (byte.val - 48) > u64Max then .error (.numberTooBig bytes)
      else parseU64Loop bytes rest (n * 10 + (byte.val - 48))

def parseU64 (bytes : List Byte) : Except ErrorKind ℕ :=
  parseU64Loop bytes bytes 0

/-- The state used for parsing a version. -/
structure Parser where
  v : List Byte
  i : ℕ
  epoch : ℕ
  release : List ℕ
  pre : Option Prerelease
  post : Option ℕ
  dev : Option ℕ
  localSegments : List LocalSegment
  wildcard : Bool

namespace Parser

def separator : List Byte := ascii "._-"

def new (version : List Byte) : Parser where
  v := version
  i := 0
  epoch := 0
  release := []
  pre := none
  post := none
  dev := none
  localSegments := []
  wildcard := false

/-- The input that is still to be read. -/
def rest (parser : Parser) : List Byte := parser.v.drop parser.i

def isDone (parser : Parser) : Bool := parser.i ≥ parser.v.length

def advance (parser : Parser) (count : ℕ) : Parser :=
  { parser with i := parser.i + count }

def unbump (parser : Parser) : Parser := { parser with i := parser.i - 1 }

def reset (parser : Parser) (offset : ℕ) : Parser :=
  { parser with i := offset }

def bumpWhile (parser : Parser) (predicate : Byte → Bool) :
    List Byte × Parser :=
  let taken := parser.rest.takeWhile predicate
  (taken, parser.advance taken.length)

def bumpIf (parser : Parser) (string : List Byte) : Option Parser :=
  if parser.isDone then none
  else if startsWithIgnoreAsciiCase string parser.rest then
    some (parser.advance string.length)
  else none

/-- The index of the first string of the set that starts the input.  The
source first compares the first byte, which only makes refusing faster. -/
def bumpIfStringSet (parser : Parser) (strings : List (List Byte)) :
    Option (ℕ × Parser) :=
  match strings.findIdx? (startsWithIgnoreAsciiCase · parser.rest) with
  | some index => some (index, parser.advance (strings.getD index []).length)
  | none => none

def bumpIfByteSet (parser : Parser) (set : List Byte) : Option (Byte × Parser) :=
  match parser.rest with
  | byte :: _ => if set.contains byte then some (byte, parser.advance 1) else none
  | [] => none

/-- `bump_if_byte_set` where the caller does not look at the result. -/
def skipByteSet (parser : Parser) (set : List Byte) : Parser :=
  match parser.bumpIfByteSet set with
  | some (_, parser) => parser
  | none => parser

def parseNumber (parser : Parser) :
    Except PatternErrorKind (Option ℕ × Parser) :=
  let (digits, parser) := parser.bumpWhile Byte.isAsciiDigit
  if digits.isEmpty then .ok (none, parser)
  else
    match parseU64 digits with
    | .ok number => .ok (some number, parser)
    | .error err => .error (.version err)

/-- The loop of `parse_fast`: `release` holds the numbers read so far. -/
def parseFastLoop : List Byte → Bool → ℕ → List ℕ → Option (List ℕ)
  | [], prevDigit, cur, release =>
      if !prevDigit then none
      else if release.length < 4 then some (release ++ [cur])
      else none
  | byte :: rest, prevDigit, cur, release =>
      if byte.val = 46 then
        if !prevDigit then none
        else if release.length < 4 then
          parseFastLoop rest false 0 (release ++ [cur])
        else none
      else if byte.val < 48 ∨ byte.val - 48 > 9 then none
      else if cur * 10 > 255 ∨ cur * 10 + (byte.val - 48) > 255 then none
      else parseFastLoop rest true (cur * 10 + (byte.val - 48)) release

/-- A fast parse of versions of the form `w[.x[.y[.z]]]`. -/
def parseFast (parser : Parser) : Option VersionPattern :=
  match parseFastLoop parser.v false 0 [] with
  | none => none
  | some release =>
      some {
        version := .small {
          len := release.length
          repr :=
            (BitVec.ofNat 64 (release.getD 0 0) <<< 48) |||
              (BitVec.ofNat 64 (release.getD 1 0) <<< 40) |||
              (BitVec.ofNat 64 (release.getD 2 0) <<< 32) |||
              (BitVec.ofNat 64 (release.getD 3 0) <<< 24) |||
              (BitVec.ofNat 64 VersionSmall.suffixNone <<<
                VersionSmall.suffixVersionBitLen) }
        wildcard := false }

def parseEpochAndInitialRelease (parser : Parser) :
    Except PatternErrorKind Parser :=
  match parser.parseNumber with
  | .error err => .error err
  | .ok (none, _) => .error (.version .noLeadingNumber)
  | .ok (some firstNumber, parser) =>
      match parser.bumpIf (ascii "!") with
      | none => .ok { parser with release := parser.release ++ [firstNumber] }
      | some parser =>
          match parser.parseNumber with
          | .error err => .error err
          | .ok (none, _) => .error (.version .noLeadingReleaseNumber)
          | .ok (some n, parser) =>
              .ok { parser with
                epoch := firstNumber
                release := parser.release ++ [n] }

/-- The loop of `parse_rest_of_release`.  Every round reads at least one byte,
so the length of the input is enough fuel. -/
def parseRestOfReleaseLoop : ℕ → Parser → Except PatternErrorKind Parser
  | 0, parser => .ok parser
  | fuel + 1, parser =>
      match parser.bumpIf (ascii ".") with
      | none => .ok parser
      | some parser =>
          match parser.parseNumber with
          | .error err => .error err
          | .ok (none, parser) => .ok parser.unbump
          | .ok (some n, parser) =>
              parseRestOfReleaseLoop fuel
                { parser with release := parser.release ++ [n] }

def parseRestOfRelease (parser : Parser) : Except PatternErrorKind Parser :=
  parseRestOfReleaseLoop parser.rest.length parser

def parseWildcard (parser : Parser) :
    Except PatternErrorKind (Bool × Parser) :=
  match parser.bumpIf (ascii ".*") with
  | none => .ok (false, parser)
  | some parser =>
      if parser.isDone then .ok (true, { parser with wildcard := true })
      else .error .wildcardNotTrailing

def preSpellings : List (List Byte) :=
  [ascii "alpha", ascii "beta", ascii "preview", ascii "pre", ascii "rc",
    ascii "a", ascii "b", ascii "c"]

/-- The kind of pre-release each spelling stands for. -/
def preMap : List PrereleaseKind :=
  [.alpha, .beta, .rc, .rc, .rc, .alpha, .beta, .rc]

/-- The number after a spelling, with its optional separator; it defaults to
zero. -/
def parseSuffixNumber (parser : Parser) :
    Except PatternErrorKind (ℕ × Parser) :=
  match (parser.skipByteSet separator).parseNumber with
  | .error err => .error err
  | .ok (number, parser) => .ok (number.getD 0, parser)

def parsePre (parser : Parser) : Except PatternErrorKind Parser :=
  let oldpos := parser.i
  let parser := parser.skipByteSet separator
  match parser.bumpIfStringSet preSpellings with
  | none => .ok (parser.reset oldpos)
  | some (spelling, parser) =>
      match parser.parseSuffixNumber with
      | .error err => .error err
      | .ok (number, parser) =>
          .ok { parser with
            pre := some { kind := preMap.getD spelling .rc, number } }

def postSpellings : List (List Byte) := [ascii "post", ascii "rev", ascii "r"]

/-- The spelled form of a post-release, tried when `-N` does not apply. -/
def parseSpelledPost (parser : Parser) : Except PatternErrorKind Parser :=
  let oldpos := parser.i
  let parser := parser.skipByteSet separator
  match parser.bumpIfStringSet postSpellings with
  | none => .ok (parser.reset oldpos)
  | some (_, parser) =>
      match parser.parseSuffixNumber with
      | .error err => .error err
      | .ok (number, parser) => .ok { parser with post := some number }

def parsePost (parser : Parser) : Except PatternErrorKind Parser :=
  let oldpos := parser.i
  match parser.bumpIf (ascii "-") with
  | none => parser.parseSpelledPost
  | some parser =>
      match parser.parseNumber with
      | .error err => .error err
      | .ok (some n, parser) => .ok { parser with post := some n }
      | .ok (none, parser) => (parser.reset oldpos).parseSpelledPost

def parseDev (parser : Parser) : Except PatternErrorKind Parser :=
  let oldpos := parser.i
  let parser := parser.skipByteSet separator
  match parser.bumpIf (ascii "dev") with
  | none => .ok (parser.reset oldpos)
  | some parser =>
      match parser.parseSuffixNumber with
      | .error err => .error err
      | .ok (number, parser) => .ok { parser with dev := some number }

/-- A local segment: a number if it is one that fits, else lower-cased text. -/
def localSegment (first : List Byte) : LocalSegment :=
  match parseU64 first with
  | .ok number => .number number
  | .error _ => .string (first.map Byte.toAsciiLowercase)

/-- The loop of `parse_local`.  Every round reads at least one byte, so one more
than the length of the input is enough fuel. -/
def parseLocalLoop : ℕ → Byte → Parser → Except PatternErrorKind Parser
  | 0, _, parser => .ok parser
  | fuel + 1, precursor, parser =>
      let (first, parser) := parser.bumpWhile Byte.isAsciiAlphanumeric
      if first.isEmpty then .error (.version (.localEmpty precursor))
      else
        let parser := { parser with
          localSegments := parser.localSegments ++ [localSegment first] }
        match parser.bumpIfByteSet separator with
        | none => .ok parser
        | some (byte, parser) => parseLocalLoop fuel byte parser

def parseLocal (parser : Parser) : Except PatternErrorKind Parser :=
  match parser.bumpIf (ascii "+") with
  | none => .ok parser
  | some parser => parseLocalLoop (parser.rest.length + 1) 43 parser

/-- `into_pattern`: the version from what was read. -/
def intoPattern (parser : Parser) : VersionPattern where
  version :=
    ((((Version.new parser.release).withEpoch parser.epoch).withPre
      parser.pre).withPost parser.post).withDev parser.dev |>.withLocal
        (.segments parser.localSegments)
  wildcard := parser.wildcard

/-- Trailing whitespace and the end of the input. -/
def parseEnd (parser : Parser) : Except PatternErrorKind VersionPattern :=
  let (_, parser) := parser.bumpWhile Byte.isAsciiWhitespace
  if parser.isDone then .ok parser.intoPattern
  else
    .error (.version (.unexpectedEnd (parser.v.take parser.i) parser.rest))

/-- The components after the release. -/
def parseSuffixes (parser : Parser) :
    Except PatternErrorKind VersionPattern := do
  let parser ← parser.parsePre
  let parser ← parser.parsePost
  let parser ← parser.parseDev
  let parser ← parser.parseLocal
  parser.parseEnd

/-- The general parser, tried when the fast one does not apply. -/
def parseSlow (parser : Parser) : Except PatternErrorKind VersionPattern := do
  let (_, parser) := parser.bumpWhile Byte.isAsciiWhitespace
  let parser := (parser.bumpIf (ascii "v")).getD parser
  let parser ← parser.parseEpochAndInitialRelease
  let parser ← parser.parseRestOfRelease
  let (wildcard, parser) ← parser.parseWildcard
  if wildcard then .ok parser.intoPattern
  else parser.parseSuffixes

/-- Parse a version pattern, which may be a verbatim version. -/
def parsePattern (parser : Parser) :
    Except PatternErrorKind VersionPattern :=
  match parser.parseFast with
  | some vpat => .ok vpat
  | none => parser.parseSlow

/-- Parse a verbatim version. -/
def parse (parser : Parser) : Except ErrorKind Version :=
  match parser.parsePattern with
  | .ok vpat => if vpat.wildcard then .error .wildcard else .ok vpat.version
  | .error (.version err) => .error err
  | .error .wildcardNotTrailing => .error .wildcard

end Parser

/-- `FromStr for Version`. -/
def Version.fromStr (version : List Byte) : Except ErrorKind Version :=
  (Parser.new version).parse

/-- `FromStr for VersionPattern`. -/
def VersionPattern.fromStr (version : List Byte) :
    Except PatternErrorKind VersionPattern :=
  (Parser.new version).parsePattern

end Uv.Pep440
