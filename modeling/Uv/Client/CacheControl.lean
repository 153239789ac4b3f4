import Mathlib

/-!
# The `Cache-Control` header

A parser for the directives of any number of header values and the fold that
collects them.  Duplicate and malformed directives make the parser insert a
`must-revalidate` directive, at most once.

Sequences of bytes are lists; a name is the list of its ASCII bytes.  Numbers are
naturals, and parsing checks that they fit in 64 bits.
-/

namespace Uv.Client

abbrev Bytes := List UInt8

/-- The bytes of an ASCII string. -/
def ascii (text : String) : Bytes :=
  text.toList.map fun c => UInt8.ofNat c.toNat

/-- The largest 64-bit number. -/
def u64Max : ℕ := 2 ^ 64 - 1

/-- Values of the directives the cache looks at. -/
structure CacheControl where
  maxAgeSeconds : Option ℕ
  noCache : Bool
  noStore : Bool
  noTransform : Bool
  maxStaleSeconds : Option ℕ
  minFreshSeconds : Option ℕ
  onlyIfCached : Bool
  mustRevalidate : Bool
  mustUnderstand : Bool
  isPrivate : Bool
  proxyRevalidate : Bool
  isPublic : Bool
  sMaxageSeconds : Option ℕ
  immutable : Bool
  deriving DecidableEq

def CacheControl.default : CacheControl where
  maxAgeSeconds := none
  noCache := false
  noStore := false
  noTransform := false
  maxStaleSeconds := none
  minFreshSeconds := none
  onlyIfCached := false
  mustRevalidate := false
  mustUnderstand := false
  isPrivate := false
  proxyRevalidate := false
  isPublic := false
  sMaxageSeconds := none
  immutable := false

/-- A single directive; the value is empty if there is none. -/
structure CacheControlDirective where
  name : Bytes
  value : Bytes
  deriving DecidableEq

def CacheControlDirective.mustRevalidate : CacheControlDirective :=
  ⟨ascii "must-revalidate", []⟩

/-! ## Collecting directives -/

def isAsciiDigit (byte : UInt8) : Bool := 48 ≤ byte && byte ≤ 57

/-- The number that digits spell, if it is a `u64`. -/
def parseInt (value : Bytes) : Option ℕ :=
  if !value.all isAsciiDigit then none
  else if value = [] then none
  else
    let seconds := value.foldl (fun n byte => 10 * n + (byte.toNat - 48)) 0
    if seconds ≤ u64Max then some seconds else none

/-- The directives with a meaning. -/
inductive DirectiveKind where
  | maxAge
  | noCache
  | noStore
  | noTransform
  | maxStale
  | minFresh
  | onlyIfCached
  | mustRevalidate
  | mustUnderstand
  | isPrivate
  | proxyRevalidate
  | isPublic
  | sMaxage
  | immutable
  deriving DecidableEq

def directiveNames : List (Bytes × DirectiveKind) :=
  [(ascii "max-age", .maxAge), (ascii "no-cache", .noCache),
    (ascii "no-store", .noStore), (ascii "no-transform", .noTransform),
    (ascii "max-stale", .maxStale), (ascii "min-fresh", .minFresh),
    (ascii "only-if-cached", .onlyIfCached), (ascii "must-revalidate", .mustRevalidate),
    (ascii "must-understand", .mustUnderstand), (ascii "private", .isPrivate),
    (ascii "proxy-revalidate", .proxyRevalidate), (ascii "public", .isPublic),
    (ascii "s-maxage", .sMaxage), (ascii "immutable", .immutable)]

def directiveKind (name : Bytes) : Option DirectiveKind := directiveNames.lookup name

namespace CacheControl

/-- Set a number; an invalid one makes the response stale instead. -/
def setSeconds (cc : CacheControl) (value : Bytes)
    (set : ℕ → CacheControl) : CacheControl :=
  match parseInt value with
  | none => { cc with mustRevalidate := true }
  | some seconds => set seconds

/-- One directive of `from_iter`. -/
def add (cc : CacheControl) (directive : CacheControlDirective) : CacheControl :=
  match directiveKind directive.name with
  | some .maxAge =>
      cc.setSeconds directive.value fun seconds => { cc with maxAgeSeconds := some seconds }
  | some .noCache => { cc with noCache := true }
  | some .noStore => { cc with noStore := true }
  | some .noTransform => { cc with noTransform := true }
  | some .maxStale =>
      -- Without a value the client accepts a response of any age.
      if directive.value = [] then { cc with maxStaleSeconds := some u64Max }
      else
        cc.setSeconds directive.value fun seconds =>
          { cc with maxStaleSeconds := some seconds }
  | some .minFresh =>
      cc.setSeconds directive.value fun seconds => { cc with minFreshSeconds := some seconds }
  | some .onlyIfCached => { cc with onlyIfCached := true }
  | some .mustRevalidate => { cc with mustRevalidate := true }
  | some .mustUnderstand => { cc with mustUnderstand := true }
  | some .isPrivate => { cc with isPrivate := true }
  | some .proxyRevalidate => { cc with proxyRevalidate := true }
  | some .isPublic => { cc with isPublic := true }
  | some .sMaxage =>
      cc.setSeconds directive.value fun seconds => { cc with sMaxageSeconds := some seconds }
  | some .immutable => { cc with immutable := true }
  | none => cc

/-- `FromIterator<CacheControlDirective> for CacheControl`. -/
def fromDirectives (directives : List CacheControlDirective) : CacheControl :=
  directives.foldl add default

end CacheControl

/-! ## The parser -/

/-- The rest of the current header value, the values after it and the names that
have been emitted. -/
structure CacheControlParser where
  cur : Bytes
  directives : List Bytes
  seen : List Bytes

def isTokenByte (byte : UInt8) : Bool :=
  (ascii "!#$%&'*+-.^_`|~").contains byte || isAsciiDigit byte ||
    (65 ≤ byte && byte ≤ 90) || (97 ≤ byte && byte ≤ 122)

def isAsciiWhitespace (byte : UInt8) : Bool :=
  byte == 9 || byte == 10 || byte == 12 || byte == 13 || byte == 32

def toAsciiLowercase (byte : UInt8) : UInt8 :=
  if 65 ≤ byte && byte ≤ 90 then byte + 32 else byte

def isQdtextByte (byte : UInt8) : Bool :=
  byte == 9 || byte == 32 || byte == 0x21 || (0x23 ≤ byte && byte ≤ 0x5B) ||
    (0x5D ≤ byte && byte ≤ 0x7E) || 0x80 ≤ byte

def isQuotedPairByte (byte : UInt8) : Bool :=
  byte == 9 || byte == 32 || (0x21 ≤ byte && byte ≤ 0x7E) || 0x80 ≤ byte

/-- A token and the rest; `none` if there is no token. -/
def parseToken (cur : Bytes) : Option (Bytes × Bytes) :=
  match cur.takeWhile isTokenByte with
  | [] => none
  | token => some (token, cur.dropWhile isTokenByte)

/-- Whether there is an equals sign, and the rest. -/
def maybeParseEquals (cur : Bytes) : Bool × Bytes :=
  match cur with
  | byte :: rest => if byte = 61 then (true, rest) else (false, cur)
  | [] => (false, cur)

/-- A quoted string whose opening quote has been consumed; `value` is what has been
read of it. -/
def parseQuotedString : Bytes → Bytes → Option (Bytes × Bytes)
  | [], _ => none
  | byte :: rest, value =>
      if byte = 34 then some (value, rest)
      else if byte = 92 then
        match rest with
        | [] => none
        | escaped :: rest =>
            if isQuotedPairByte escaped then parseQuotedString rest (value ++ [escaped])
            else none
      else if isQdtextByte byte then parseQuotedString rest (value ++ [byte])
      else none

def parseValue (cur : Bytes) : Option (Bytes × Bytes) :=
  match cur with
  | [] => none
  | byte :: rest => if byte = 34 then parseQuotedString rest [] else parseToken cur

def maybeParseDirectiveDelimiter (cur : Bytes) : Bytes :=
  match cur with
  | byte :: rest => if byte = 44 then rest else cur
  | [] => cur

def skipWhitespace (cur : Bytes) : Bytes := cur.dropWhile isAsciiWhitespace

/-- Eat up whitespace and the next delimiter. -/
def skipDelimiter (cur : Bytes) : Bytes :=
  maybeParseDirectiveDelimiter (skipWhitespace cur)

namespace CacheControlParser

def new (headers : List Bytes) : CacheControlParser :=
  match headers with
  | [] => ⟨[], [], []⟩
  | cur :: directives => ⟨cur, directives, []⟩

def emitRevalidation (parser : CacheControlParser) :
    Option CacheControlDirective × CacheControlParser :=
  if parser.seen.contains (ascii "must-revalidate") then (none, parser)
  else (some .mustRevalidate, { parser with seen := ascii "must-revalidate" :: parser.seen })

def emitDirective (parser : CacheControlParser) (directive : CacheControlDirective) :
    Option CacheControlDirective × CacheControlParser :=
  if parser.seen.contains directive.name then parser.emitRevalidation
  else (some directive, { parser with seen := directive.name :: parser.seen })

/-- What comes next in a header value. -/
inductive Item where
  /-- Nothing is left but whitespace. -/
  | blank
  /-- No directive can be read, and the rest of the value is skipped. -/
  | invalid
  | directive (directive : CacheControlDirective)
  deriving DecidableEq

/-- Read the next item of a header value. -/
def readItem (cur : Bytes) : Item × Bytes :=
  let cur := skipWhitespace cur
  match parseToken cur with
  | none => (if cur = [] then .blank else .invalid, [])
  | some (name, cur) =>
      let name := name.map toAsciiLowercase
      match maybeParseEquals cur with
      | (false, cur) => (.directive ⟨name, []⟩, skipDelimiter cur)
      | (true, cur) =>
          match parseValue cur with
          -- An equals sign without a valid value.
          | none => (.invalid, [])
          | some (value, cur) => (.directive ⟨name, value⟩, skipDelimiter cur)

/-- One iteration of the inner loop of `next`, for a value with something left. -/
def parseItem (parser : CacheControlParser) :
    Option CacheControlDirective × CacheControlParser :=
  let (item, cur) := readItem parser.cur
  let parser := { parser with cur := cur }
  match item with
  | .blank => (none, parser)
  | .invalid => parser.emitRevalidation
  | .directive directive => parser.emitDirective directive

/-- All directives that `next` returns; the fuel bounds the iterations. -/
def emitted : ℕ → CacheControlParser → List CacheControlDirective
  | 0, _ => []
  | fuel + 1, parser =>
      if parser.cur = [] then
        match parser.directives with
        | [] => []
        | cur :: directives =>
            emitted fuel { parser with cur := cur, directives := directives }
      else
        match parser.parseItem with
        | (none, parser) => emitted fuel parser
        | (some directive, parser) => directive :: emitted fuel parser

/-- Every iteration takes a byte of a value or goes on to the next value. -/
def size (parser : CacheControlParser) : ℕ :=
  parser.cur.length + (parser.directives.map fun value => value.length + 1).sum

end CacheControlParser

/-- `FromIterator<&B> for CacheControl`. -/
def CacheControl.fromHeaders (headers : List Bytes) : CacheControl :=
  let parser := CacheControlParser.new headers
  .fromDirectives (parser.emitted (parser.size + 1))

end Uv.Client
