import Uv.Pep508.Requirement

/-!
# Entries of a requirements file

`parse_entry` reads one statement and returns what is left of the text.  A position is
what is left to read there.  What the values of options and requirements stand for is a
parameter; the entries only depend on where they end.
-/

set_option linter.unusedVariables false

namespace Uv.Requirements

open Uv.Core Uv.Pep508
open Uv.Pep440.VersionSpecifier (isWhitespace)

inductive UnsupportedOption where
  | preferBinary | requireHashes | pre | trustedHost | useFeature
  deriving DecidableEq

namespace UnsupportedOption

def name : UnsupportedOption → String
  | preferBinary => "--prefer-binary"
  | requireHashes => "--require-hashes"
  | pre => "--pre"
  | trustedHost => "--trusted-host"
  | useFeature => "--use-feature"

def iter : List UnsupportedOption := [preferBinary, requireHashes, pre, trustedHost, useFeature]

end UnsupportedOption

variable {E Requirement Url Specifier : Type}

/-- A statement without its positions. -/
inductive Entry (Requirement Url Specifier : Type) where
  | requirements (filename : Text)
  | constraint (filename : Text)
  | requirementEntry (requirement : Requirement) (hashes : List Text)
  | editableRequirementEntry (requirement : Requirement) (hashes : List Text)
  | indexUrl (url : Url)
  | extraIndexUrl (url : Url)
  | findLinks (url : Url)
  | noIndex
  | noBinary (specifier : Specifier)
  | onlyBinary (specifier : Specifier)
  | unsupportedOption (option : UnsupportedOption)
  deriving DecidableEq

/-- An error and what is left at its position. -/
inductive EntryError (E : Type) where
  | trailing (rest : Text)
  | expectedValue (rest : Text)
  /-- The message does not say whether there was an equals sign. -/
  | noArgument (option : String) (explicit : Bool) (rest : Text)
  | expectedHash (rest : Text)
  | unexpected (rest : Text)
  | missingRequirementPrefix (requirement : Text)
  | pep508 (requirement rest : Text) (source : E)
  | nonEditable (source : E)
  | url (source : E)
  | specifier (source : E)
  deriving DecidableEq

/-- What the texts of values and requirements stand for. -/
structure Readers (E Requirement Url Specifier : Type) where
  unquote : Text → Option Text
  isFile : Text → Bool
  parseRequirement : Text → Bool → Except E Requirement
  /-- `Empty field is not allowed for PEP508` -/
  empty : ∀ editable, ∃ e, parseRequirement [] editable = .error e
  intoEditable : Requirement → Except E Requirement
  parseUrl : Text → Except E Url
  parseSpecifier : Text → Except E Specifier

/-! ## Scanning -/

def isTerminal (c : Char) : Bool := c = '\n' || c = '\r' || c = '#'

def eatIf (word : String) (s : Text) : Option Text :=
  if word.toList <+: s then some (s.drop word.toList.length) else none

/-- Blanks and line breaks escaped with a backslash. -/
def eatWrappableWhitespace : Text → Text
  | ' ' :: rest => eatWrappableWhitespace rest
  | '\t' :: rest => eatWrappableWhitespace rest
  | '\\' :: '\n' :: rest => eatWrappableWhitespace rest
  | '\\' :: '\r' :: '\n' :: rest => eatWrappableWhitespace rest
  | '\\' :: '\r' :: rest => eatWrappableWhitespace rest
  | s => s

/-- `s.eat_until(['\r', '\n'])` -/
def eatComment (s : Text) : Text := s.dropWhile fun c => c ≠ '\r' && c ≠ '\n'

/-- A line feed, a carriage return or both. -/
def eatLineEnd : Text → Option Text
  | '\n' :: rest => some rest
  | '\r' :: '\n' :: rest => some rest
  | '\r' :: rest => some rest
  | _ => none

def eatTrailingLine (s : Text) : Except (EntryError E) Text :=
  let s := s.dropWhile fun c => c = ' ' || c = '\t'
  match eatLineEnd s, s with
  | some rest, _ => .ok rest
  | none, [] => .ok []
  -- The line feed after a carriage return is not eaten: the scanner is before both.
  | none, '#' :: rest => .ok (eatComment rest)
  | none, _ :: rest => .error (.trailing rest)

theorem length_eatWrappableWhitespace (s : Text) :
    (eatWrappableWhitespace s).length ≤ s.length := by
  fun_induction eatWrappableWhitespace s <;> grind

theorem suffix_eatWrappableWhitespace (s : Text) : eatWrappableWhitespace s <:+ s := by
  fun_induction eatWrappableWhitespace s with
  | case1 rest ih => exact ih.trans (List.suffix_cons _ _)
  | case2 rest ih => exact ih.trans (List.suffix_cons _ _)
  | case3 rest ih => exact ih.trans (List.suffix_append ['\\', '\n'] _)
  | case4 rest ih => exact ih.trans (List.suffix_append ['\\', '\r', '\n'] _)
  | case5 rest _ ih => exact ih.trans (List.suffix_append ['\\', '\r'] _)
  | case6 s => exact List.suffix_rfl

theorem suffix_eatLineEnd {s rest : Text} (heat : eatLineEnd s = some rest) :
    ∃ c, ∃ ending, s = c :: ending ++ rest := by
  revert heat
  fun_cases eatLineEnd s with
  | case1 rest =>
      rintro ⟨⟩
      exact ⟨'\n', [], rfl⟩
  | case2 rest =>
      rintro ⟨⟩
      exact ⟨'\r', ['\n'], rfl⟩
  | case3 rest =>
      rintro ⟨⟩
      exact ⟨'\r', [], rfl⟩
  | case4 => nofun

theorem length_eatLineEnd {s rest : Text} (heat : eatLineEnd s = some rest) :
    rest.length < s.length := by
  obtain ⟨c, ending, rfl⟩ := suffix_eatLineEnd heat
  simp

/-- At a line ending or a comment, the rest of the line is eaten. -/
theorem eatTrailingLine_of_terminal {s : Text} (hterminal : s.head?.any isTerminal = true) :
    (∃ rest, s = '#' :: rest ∧
      (eatTrailingLine s : Except (EntryError E) Text) = .ok (eatComment rest)) ∨
    ∃ rest, eatLineEnd s = some rest ∧
      (eatTrailingLine s : Except (EntryError E) Text) = .ok rest := by
  cases s with
  | nil => cases hterminal
  | cons c text =>
      have hc : (c = '\n' ∨ c = '\r') ∨ c = '#' := by
        simpa [isTerminal] using hterminal
      rcases hc with (rfl | rfl) | rfl
      · exact Or.inr ⟨text, rfl, rfl⟩
      · cases hline : eatLineEnd ('\r' :: text) with
        | none => cases text with
          | nil => cases hline
          | cons c text =>
              by_cases hc : c = '\n'
              · rw [hc] at hline
                cases hline
              · rw [eatLineEnd] at hline
                · cases hline
                · intro rest heq
                  exact hc (List.cons.inj heq).1
        | some rest =>
            refine Or.inr ⟨rest, rfl, ?_⟩
            rw [eatTrailingLine]
            simp [hline]
      · exact Or.inl ⟨text, rfl, rfl⟩

theorem length_eatTrailingLine {s rest : Text} (hterminal : s.head?.any isTerminal = true)
    (heat : (eatTrailingLine s : Except (EntryError E) Text) = .ok rest) :
    rest.length < s.length := by
  rcases eatTrailingLine_of_terminal hterminal with ⟨comment, rfl, hcomment⟩ |
    ⟨line, hline, hok⟩
  · rw [hcomment] at heat
    cases heat
    exact Nat.lt_succ_of_le (List.length_dropWhile_le _ _)
  · rw [hok] at heat
    cases heat
    exact length_eatLineEnd hline

/-- Whitespace, empty lines and comments before an entry. -/
def skipTrivia (s : Text) : Except (EntryError E) Text :=
  let s₁ := eatWrappableWhitespace s
  if hterminal : s₁.head?.any isTerminal = true then
    match heat : (eatTrailingLine s₁ : Except (EntryError E) Text) with
    | .error e => .error e
    | .ok rest => skipTrivia rest
  else .ok s₁
termination_by s.length
decreasing_by
  exact (length_eatTrailingLine hterminal heat).trans_le (length_eatWrappableWhitespace s)

theorem skipTrivia_comment {s rest : Text} (hblank : eatWrappableWhitespace s = '#' :: rest) :
    (skipTrivia s : Except (EntryError E) Text) = skipTrivia (eatComment rest) := by
  have hterminal : (eatWrappableWhitespace s).head?.any isTerminal = true := by rw [hblank]; rfl
  have heat : (eatTrailingLine (eatWrappableWhitespace s) : Except (EntryError E) Text) =
      .ok (eatComment rest) := by rw [hblank]; rfl
  rw [skipTrivia, dif_pos hterminal]
  split
  · rename_i hother
    rw [heat] at hother
    cases hother
  · rename_i hother
    rw [heat] at hother
    cases hother
    rfl

theorem skipTrivia_line {s rest : Text}
    (hline : eatLineEnd (eatWrappableWhitespace s) = some rest) :
    (skipTrivia s : Except (EntryError E) Text) = skipTrivia rest := by
  have hterminal : (eatWrappableWhitespace s).head?.any isTerminal = true := by
    revert hline
    fun_cases eatLineEnd (eatWrappableWhitespace s) with
    | case1 | case2 | case3 => exact fun _ => rfl
    | case4 => nofun
  have heat : (eatTrailingLine (eatWrappableWhitespace s) : Except (EntryError E) Text) =
      .ok rest := by
    rcases eatTrailingLine_of_terminal hterminal with ⟨_, hcomment, _⟩ | ⟨_, hother, hok⟩
    · rw [hcomment] at hline
      cases hline
    · rw [hother] at hline
      cases hline
      exact hok
  rw [skipTrivia, dif_pos hterminal]
  split
  · rename_i hother
    rw [heat] at hother
    cases hother
  · rename_i hother
    rw [heat] at hother
    cases hother
    rfl

theorem skipTrivia_of_not {s : Text}
    (hterminal : (eatWrappableWhitespace s).head?.any isTerminal = false) :
    (skipTrivia s : Except (EntryError E) Text) = .ok (eatWrappableWhitespace s) := by
  rw [skipTrivia, dif_neg (by simp [hterminal])]

/-- The text of a requirement, whether hashes follow it, and what is left. -/
def requirementLoop (taken s : Text) : Text × Bool × Text :=
  match eatLineEnd s with
  | some rest => (taken, false, rest)
  | none =>
      let s₁ := eatWrappableWhitespace s
      if s₁.length < s.length then
        if "--".toList <+: s₁ then (taken, true, s₁)
        else if s₁.head? = some '#' then (taken, false, eatComment s₁.tail)
        else requirementLoop (taken ++ s.take (s.length - s₁.length)) s₁
      else
        match s with
        | [] => (taken, false, [])
        | c :: rest => requirementLoop (taken ++ [c]) rest
termination_by s.length

def trimEnd (text : Text) : Text := (text.reverse.dropWhile isWhitespace).reverse

/-- The argument after an option and its separator. -/
def readArgument (option : String) (explicit : Bool) (condition : Char → Bool) (s : Text) :
    Except (EntryError E) (Text × Text) :=
  let value := trimEnd (s.takeWhile condition)
  let s := s.dropWhile condition
  if value.isEmpty then .error (.noArgument option explicit s) else .ok (value, s)

def parseValue (option : String) (condition : Char → Bool) (s : Text) :
    Except (EntryError E) (Text × Text) :=
  match s with
  | '=' :: rest => readArgument option true condition rest
  | s =>
      if s.head?.any isWhitespace then
        readArgument option false condition (s.dropWhile isWhitespace)
      else .error (.expectedValue s)

/-- `s.eat_while("--hash")` -/
def eatHashes : Text → Text
  | '-' :: '-' :: 'h' :: 'a' :: 's' :: 'h' :: rest => eatHashes rest
  | s => s

theorem suffix_eatIf {word : String} {s rest : Text} (heat : eatIf word s = some rest) :
    s = word.toList ++ rest := by
  rw [eatIf] at heat
  split_ifs at heat with hprefix
  cases heat
  exact (List.prefix_iff_eq_append.mp hprefix).symm

theorem suffix_parseValue {option : String} {condition : Char → Bool} {s rest value : Text}
    (hparse : (parseValue option condition s : Except (EntryError E) _) = .ok (value, rest)) :
    rest <:+ s := by
  have hread : ∀ {explicit : Bool} {s : Text},
      (readArgument option explicit condition s : Except (EntryError E) _) = .ok (value, rest) →
        rest <:+ s := by
    intro explicit s hread
    rw [readArgument] at hread
    split_ifs at hread
    cases hread
    exact List.dropWhile_suffix _
  rw [parseValue.eq_def] at hparse
  split at hparse
  · exact (hread hparse).trans (List.suffix_cons _ _)
  · split_ifs at hparse
    exact (hread hparse).trans (List.dropWhile_suffix _)

/-- The loop of `parse_hashes`. -/
def hashesLoop (hashes : List Text) (s : Text) : Except (EntryError E) (List Text × Text) :=
  let s₁ := eatWrappableWhitespace s
  match hhash : eatIf "--hash" s₁ with
  | none => .ok (hashes, s₁)
  | some s₂ =>
      match hvalue : (parseValue "--hash" (!isWhitespace ·) s₂ : Except (EntryError E) _) with
      | .error e => .error e
      | .ok (hash, s₃) => hashesLoop (hashes ++ [hash]) s₃
termination_by s.length
decreasing_by
  have hlength := congrArg List.length (suffix_eatIf hhash)
  have hword : "--hash".toList.length = 6 := rfl
  rw [List.length_append, hword] at hlength
  change (eatWrappableWhitespace s).length = _ at hlength
  have hle := (suffix_parseValue hvalue).length_le
  have hblank := length_eatWrappableWhitespace s
  omega

theorem hashesLoop_eq (hashes : List Text) (s : Text) :
    (hashesLoop hashes s : Except (EntryError E) _) =
      match eatIf "--hash" (eatWrappableWhitespace s) with
      | none => .ok (hashes, eatWrappableWhitespace s)
      | some rest => parseValue "--hash" (!isWhitespace ·) rest >>= fun read =>
          hashesLoop (hashes ++ [read.1]) read.2 := by
  rw [hashesLoop]
  split
  · rename_i hhash
    rw [hhash]
  · rename_i hhash
    rw [hhash]
    dsimp only
    split
    · rename_i hvalue
      rw [hvalue]
      rfl
    · rename_i hvalue
      rw [hvalue]
      rfl

def parseHashes (s : Text) : Except (EntryError E) (List Text × Text) :=
  if (eatHashes s).length = s.length then .error (.expectedHash s)
  else do
    let (hash, s) ← parseValue "--hash" (!isWhitespace ·) (eatHashes s)
    hashesLoop [hash] s

/-! ## `parse_entry` -/

section Parse

variable (readers : Readers E Requirement Url Specifier)

def parseRequirementAndHashes (editable : Bool) (s : Text) :
    Except (EntryError E) ((Requirement × List Text) × Text) := do
  let (requirement, hasHashes, s) := requirementLoop [] s
  if (".txt".toList <:+ requirement ∨ ".in".toList <:+ requirement) ∧
      readers.isFile requirement = true then
    throw (.missingRequirementPrefix requirement)
  let parsed ← (readers.parseRequirement requirement editable).mapError (.pep508 requirement s)
  if hasHashes then do
    let (hashes, s) ← parseHashes s
    pure ((parsed, hashes), s)
  else pure ((parsed, []), s)

/-- The value of an option up to the end of the line or a comment. -/
def parseUnquoted (option : String) (s : Text) : Except (EntryError E) (Text × Text) := do
  let (given, s) ← parseValue option (!isTerminal ·) s
  pure ((readers.unquote given).getD given, s)

abbrev EntryReader (E Requirement Url Specifier : Type) :=
  Text → Except (EntryError E) (Entry Requirement Url Specifier × Text)

def parseFile (option : String) (entry : Text → Entry Requirement Url Specifier) :
    EntryReader E Requirement Url Specifier := fun s => do
  let (filename, s) ← parseUnquoted readers option s
  pure (entry filename, s)

def parseUrlOption (option : String) (entry : Url → Entry Requirement Url Specifier) :
    EntryReader E Requirement Url Specifier := fun s => do
  let (given, s) ← parseUnquoted readers option s
  let url ← (readers.parseUrl given).mapError .url
  pure (entry url, s)

def parseSpecifierOption (option : String) (entry : Specifier → Entry Requirement Url Specifier) :
    EntryReader E Requirement Url Specifier := fun s => do
  let (given, s) ← parseUnquoted readers option s
  let specifier ← (readers.parseSpecifier given).mapError .specifier
  pure (entry specifier, s)

/-- The requirement after `-e` and its separator. -/
def readEditable : EntryReader E Requirement Url Specifier := fun s => do
  let ((requirement, hashes), s) ← parseRequirementAndHashes readers true s
  let requirement ← (readers.intoEditable requirement).mapError .nonEditable
  pure (.editableRequirementEntry requirement hashes, s)

def parseEditable : EntryReader E Requirement Url Specifier
  | '=' :: rest => readEditable readers rest
  | s =>
      if s.head?.any isWhitespace then readEditable readers (s.dropWhile isWhitespace)
      else .error (.expectedValue s)

/-- The options in the order in which they are tried. -/
def options : List (List String × EntryReader E Requirement Url Specifier) :=
  [(["-r", "--requirement"], parseFile readers "--requirement" .requirements),
    (["-c", "--constraint"], parseFile readers "--constraint" .constraint),
    (["-e", "--editable"], parseEditable readers),
    (["-i", "--index-url"], parseUrlOption readers "--index-url" .indexUrl),
    (["--extra-index-url"], parseUrlOption readers "--extra-index-url" .extraIndexUrl),
    (["--no-index"], fun s => .ok (.noIndex, s)),
    (["--find-links", "-f"], parseUrlOption readers "--find-links" .findLinks),
    (["--no-binary"], parseSpecifierOption readers "--no-binary" .noBinary),
    (["--only-binary"], parseSpecifierOption readers "--only-binary" .onlyBinary)]

/-- What an unsupported option is read as. -/
def unsupportedOptions : List (List String × EntryReader E Requirement Url Specifier) :=
  UnsupportedOption.iter.map fun option =>
    ([option.name], fun s => .ok (.unsupportedOption option, s.dropWhile (!isTerminal ·)))

/-- The first option whose name the text begins with. -/
def readOption (options : List (List String × EntryReader E Requirement Url Specifier))
    (s : Text) : Option (Except (EntryError E) (Entry Requirement Url Specifier × Text)) :=
  options.findSome? fun (names, read) => (names.findSome? fun name => eatIf name s).map read

def startsRequirement (c : Char) : Bool := isAlphanumeric c || c = '.' || c = '/' || c = '$'

def parseRequirementEntry : EntryReader E Requirement Url Specifier := fun s => do
  let ((requirement, hashes), s) ← parseRequirementAndHashes readers false s
  pure (.requirementEntry requirement hashes, s)

/-- The entry at the start of a text without trivia. -/
def readEntry (s : Text) :
    Except (EntryError E) (Option (Entry Requirement Url Specifier × Text)) :=
  match readOption (options readers) s with
  | some result => result.map some
  | none =>
      if s.head?.any startsRequirement then (parseRequirementEntry readers s).map some
      else if s.isEmpty then .ok none
      else
        match readOption unsupportedOptions s with
        | some result => result.map some
        | none => .error (.unexpected s)

def parseEntry (s : Text) :
    Except (EntryError E) (Option (Entry Requirement Url Specifier × Text)) := do
  let s ← skipTrivia s
  readEntry readers s

/-- `parse_entry` is called until it fails or there is no entry left. -/
inductive Entries : Text →
    Except (EntryError E) (List (Entry Requirement Url Specifier)) → Prop
  | done {s : Text} (hparse : parseEntry readers s = .ok none) : Entries s (.ok [])
  | fails {s : Text} {e : EntryError E} (hparse : parseEntry readers s = .error e) :
      Entries s (.error e)
  | next {s rest : Text} {entry : Entry Requirement Url Specifier}
      {result : Except (EntryError E) (List (Entry Requirement Url Specifier))}
      (hparse : parseEntry readers s = .ok (some (entry, rest))) (hrest : Entries rest result) :
      Entries s (result.map (entry :: ·))

end Parse

end Uv.Requirements
